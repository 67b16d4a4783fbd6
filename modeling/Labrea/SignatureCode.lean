import Labrea.GenInvoker

/-! The signature code of `mkgeninvoker.py` as a bijection: results and argument sequences of
one length against the offsets below a power of two. `mk_argseq` lists the sequences in the
order of their codes.
-/

namespace Labrea

/-- A width is narrower than another one when its bit is. -/
theorem Width.isEight_lt_iff {first second : Width}
    : first.isEight < second.isEight ↔ first < second := by
  cases first <;> cases second <;> decide

/-- Sequences of digits are ordered as their bits are. -/
theorem isEight_map_lt_iff {first second : List Width}
    : first.map Width.isEight < second.map Width.isEight ↔ first < second := by
  induction first generalizing second with
  | nil => cases second <;> simp
  | cons width widths ih =>
      cases second with
      | nil => simp
      | cons width' widths' =>
          have heads : width.isEight = width'.isEight ↔ width = width' := by
            cases width <;> cases width' <;> decide
          simp only [List.map_cons, List.cons_lt_cons_iff, Width.isEight_lt_iff, heads, ih]

/-- With one result, the codes of argument sequences of one length are ordered as the strings
of their digits are.
-/
theorem encode_lt_encode_iff {r : Width} {first second : List Width}
    (lengths : first.length = second.length)
    : encode r first < encode r second ↔ first < second := by
  have bits : (first.map Width.isEight).length = (second.map Width.isEight).length := by
    simpa using lengths
  rw [← isEight_map_lt_iff, ← BitCode.value_lt_value_iff bits, encode_eq_value,
    encode_eq_value, BitCode.value_concat, BitCode.value_concat]
  omega

/-- `mk_argseq` sorts distinct strings, so each is below all after it. -/
theorem mkArgseq_sorted (l : Nat) : (mkArgseq l).Pairwise (· < ·) := by
  have ordered : (mkArgseq l).Pairwise (· ≤ ·) := by
    refine (List.pairwise_mergeSort ?_ ?_ _).imp fun le => by simpa using le
    · intro a b c le le'
      simp only [decide_eq_true_eq] at le le' ⊢
      exact le.trans le'
    · intro a b
      simpa using le_total a b
  exact (ordered.and (mkArgseq_nodup l)).imp fun both => lt_of_le_of_ne both.1 both.2

/-- `encode` and `decode` are inverse to each other at every length, and `mk_argseq` lists
every sequence of that length once, by increasing code. Witness: the sort is the one of the
codes, as all sequences have the same length.
-/
theorem signatureCode_bijective (n : Nat)
    : (∀ r argseq, argseq.length = n → decode (encode r argseq) n = (r, argseq))
      ∧ (∀ offset < 2 ^ (n + 1), encode (decode offset n).1 (decode offset n).2 = offset)
      ∧ (mkArgseq n).Nodup
      ∧ (∀ argseq, argseq ∈ mkArgseq n ↔ argseq.length = n)
      ∧ (mkArgseq n).Pairwise (fun first second => encode .w4 first < encode .w4 second) := by
  refine ⟨?_, ?_, mkArgseq_nodup n, fun argseq => mem_mkArgseq, ?_⟩
  · intro r argseq length
    rw [← length]
    exact decode_encode r argseq
  · intro offset bound
    exact encode_decode bound
  · refine (mkArgseq_sorted n).imp_of_mem ?_
    intro first second listed listed' before
    have lengths : first.length = second.length :=
      (mem_mkArgseq.mp listed).trans (mem_mkArgseq.mp listed').symm
    exact (encode_lt_encode_iff lengths).mpr before

end Labrea
