import Mathlib.Data.List.AList
import Mathlib.Data.List.Dedup
import Mathlib.Data.List.Lex
import Mathlib.Order.Lattice
import Labrea.FunctionTable

/-! `mkgeninvoker.py`: the invokers it emits for every signature, the dispatch table it
emits for every arity, and their agreement with `computeOffset` of `labrea.cc`.
-/

namespace Labrea

-----------------------------------------------------------------------------------------
-- The generator
-----------------------------------------------------------------------------------------

/-- A width 4 or 8. A string of digits '4' and '8' is a list of widths. -/
inductive Width where
  | w4
  | w8
  deriving DecidableEq, Repr

namespace Width

def size : Width → Nat
  | .w4 => 4
  | .w8 => 8

/-- `str(x)` -/
def digit : Width → Char
  | .w4 => '4'
  | .w8 => '8'

/-- `int(int(x) == 8)` -/
def isEight (width : Width) : Bool :=
  width == .w8

/-- `int('48'[n])` -/
def ofIndex : Nat → Width
  | 0 => .w4
  | _ => .w8

def ofBit (bit : Bool) : Width :=
  if bit then .w8 else .w4

@[simp] theorem isEight_ofBit (bit : Bool) : (ofBit bit).isEight = bit := by
  cases bit <;> rfl

@[simp] theorem ofBit_isEight (width : Width) : ofBit width.isEight = width := by
  cases width <;> rfl

theorem size_injective : Function.Injective size := by
  intro first second same
  cases first <;> cases second <;> simp_all [size]

/-- The order of the digits. -/
instance : LinearOrder Width := LinearOrder.lift' size size_injective

end Width

/-- The C type `type` names for a width. -/
inductive UIntType where
  | uint32
  | uint64
  deriving DecidableEq, Repr

/-- The member of `union farg` that `fargtype` names for a width. -/
inductive FargMember where
  | i32
  | i64
  deriving DecidableEq, Repr

/-- `type(s)` -/
def uintType : Width → UIntType
  | .w4 => .uint32
  | .w8 => .uint64

/-- `fargtype(s)` -/
def fargtype : Width → FargMember
  | .w4 => .i32
  | .w8 => .i64

def encode (r : Width) (argseq : List Width) : Nat :=
  let i := argseq.foldl (fun i b => (i <<< 1) ||| b.isEight.toNat) 0
  (i <<< 1) ||| r.isEight.toNat

def decode (offset length : Nat) : Width × List Width :=
  let r := Width.ofIndex (offset &&& 1)
  let offset := offset >>> 1
  let seq := ((List.range length).map (fun i => Width.ofIndex ((offset >>> i) &&& 1))).reverse
  (r, seq)

def genfname (argc : Nat) (r : Width) (argwidth : List Width) : CString :=
  "invoke_".toList ++ (toString argc).toList ++ ['_', r.digit] ++
    '_' :: argwidth.map Width.digit

/-- `sorted(set(...))` over a range twice as long as the codes of the arguments. -/
def mkArgseq (l : Nat) : List (List Width) :=
  ((List.range (2 ^ (l + 1))).map (fun x => (decode x l).2)).dedup.mergeSort

/-- An emitted `static lua_Integer fname(const void *f, ...)`: the result and argument
types of its cast of `f`, and the arguments it passes, each a member of one `farg`.
-/
structure Invoker where
  fname : CString
  ret : UIntType
  argtypes : List UIntType
  callargs : List (Nat × FargMember)
  deriving DecidableEq, Repr

def gen (argc : Nat) (r : Width) (argwidth : List Width) : Invoker where
  fname := genfname argc r argwidth
  ret := uintType r
  argtypes := argwidth.map uintType
  callargs := argwidth.mapIdx (fun i t => (i, fargtype t))

/-- The first generation loop, for `MAXARGS = maxargs`. -/
def invokers (maxargs : Nat) : List Invoker :=
  (List.range' 1 maxargs).flatMap fun i =>
    (mkArgseq i).flatMap fun argseq =>
      [.w4, .w8].map fun r => gen i r argseq

abbrev Dict := AList (fun _ : Nat => List Width)

/-- `dict(pairs)` onto a given dictionary, and `update`. -/
def Dict.update (dict : Dict) (pairs : List (Nat × List Width)) : Dict :=
  pairs.foldl (fun dict pair => dict.insert pair.1 pair.2) dict

def allfuns (i : Nat) : Dict :=
  let narrow := Dict.update ∅ ((mkArgseq i).map fun seq => (encode .w4 seq, seq))
  Dict.update narrow ((mkArgseq i).map fun seq => (encode .w8 seq, seq))

/-- `{o: 4}.get(encode(4, seq), 8)` -/
def returnWidth (o : Nat) (seq : List Width) : Width :=
  if encode .w4 seq = o then .w4 else .w8

/-- The second generation loop: the names in `allfuns[]` of arity `i`, `none` for `NULL`. -/
def invokerTable (i : Nat) : List (Option CString) :=
  (List.range (allfuns i).keys.length).map fun o =>
    ((allfuns i).lookup o).map fun seq => genfname i (returnWidth o seq) seq

/-- `encode` is the bit code of the wide arguments followed by the wide result. -/
theorem encode_eq_value (r : Width) (argseq : List Width)
    : encode r argseq = BitCode.value (argseq.map Width.isEight ++ [r.isEight]) := by
  simp only [encode, BitCode.value, List.foldl_append, List.foldl_map, List.foldl_cons,
    List.foldl_nil]

theorem encode_lt (r : Width) (argseq : List Width)
    : encode r argseq < 2 ^ (argseq.length + 1) := by
  simpa [encode_eq_value] using BitCode.value_lt (argseq.map Width.isEight ++ [r.isEight])

theorem Width.ofIndex_and_one (code i : Nat)
    : Width.ofIndex ((code >>> i) &&& 1) = Width.ofBit (code.testBit i) := by
  rw [Nat.testBit_eq_decide_div_mod_eq, Nat.and_one_is_mod, Nat.shiftRight_eq_div_pow]
  rcases Nat.mod_two_eq_zero_or_one (code / 2 ^ i) with even | odd
  · simp [even, Width.ofIndex, Width.ofBit]
  · simp [odd, Width.ofIndex, Width.ofBit]

/-- `decode` reads the lowest bit as the result and the next ones as the arguments. -/
theorem decode_eq_digits (offset length : Nat)
    : decode offset length
      = (Width.ofBit (offset.testBit 0),
          (BitCode.digits length (offset / 2)).map Width.ofBit) := by
  have low := Width.ofIndex_and_one offset 0
  rw [Nat.shiftRight_zero] at low
  have half : offset >>> 1 = offset / 2 := rfl
  simp only [decode, low, half, Width.ofIndex_and_one, BitCode.digits, List.map_reverse,
    List.map_map]
  rfl

@[simp] theorem decode_length (offset length : Nat) : (decode offset length).2.length = length := by
  simp [decode]

/-- Decoding a code gives back its result and arguments. -/
theorem decode_encode (r : Width) (argseq : List Width)
    : decode (encode r argseq) argseq.length = (r, argseq) := by
  have bit : r.isEight.toNat ≤ 1 := Bool.toNat_le _
  have half : encode r argseq / 2 = BitCode.value (argseq.map Width.isEight) := by
    rw [encode_eq_value, BitCode.value_concat]
    omega
  have low : (encode r argseq).testBit 0 = r.isEight := by
    rw [encode_eq_value, BitCode.value_concat, Nat.testBit_zero]
    cases r.isEight <;> simp
  have digits := BitCode.digits_value (argseq.map Width.isEight)
  rw [List.length_map] at digits
  have inverse : Width.ofBit ∘ Width.isEight = id := funext Width.ofBit_isEight
  rw [decode_eq_digits, half, low, digits, Width.ofBit_isEight, List.map_map, inverse,
    List.map_id]

/-- Encoding what an offset below the table length decodes to gives the offset back. -/
theorem encode_decode {offset length : Nat} (bound : offset < 2 ^ (length + 1))
    : encode (decode offset length).1 (decode offset length).2 = offset := by
  have rest : offset / 2 < 2 ^ length := by
    rw [Nat.pow_succ] at bound
    omega
  have inverse : Width.isEight ∘ Width.ofBit = id := funext Width.isEight_ofBit
  rw [encode_eq_value, decode_eq_digits, List.map_map, inverse, List.map_id,
    Width.isEight_ofBit, BitCode.value_concat, BitCode.value_digits, Nat.mod_eq_of_lt rest,
    Nat.testBit_zero]
  rcases Nat.mod_two_eq_zero_or_one offset with even | odd
  · simp only [even, Nat.zero_ne_one, decide_false, Bool.toNat_false]
    omega
  · simp only [odd, decide_true, Bool.toNat_true]
    omega

/-- `mk_argseq(l)` lists exactly the sequences of length `l`: each is decoded from its own
code, which lies inside the range.
-/
theorem mem_mkArgseq {l : Nat} {seq : List Width} : seq ∈ mkArgseq l ↔ seq.length = l := by
  rw [mkArgseq, List.mem_mergeSort, List.mem_dedup, List.mem_map]
  constructor
  · intro holds
    rcases holds with ⟨offset, _, rfl⟩
    exact decode_length offset l
  · rintro rfl
    exact ⟨encode .w4 seq, List.mem_range.mpr (encode_lt .w4 seq),
      congrArg Prod.snd (decode_encode .w4 seq)⟩

theorem mkArgseq_nodup (l : Nat) : (mkArgseq l).Nodup :=
  (List.mergeSort_perm _ _).nodup_iff.mpr (List.nodup_dedup _)

theorem Width.digit_injective : Function.Injective Width.digit := by
  intro first second same
  cases first <;> cases second <;> simp_all [Width.digit]

/-- A suffix after an underscore that has none itself starts at the last underscore. -/
private theorem middle_nil_of_underscore {middle back back' : CString} (last : '_' ∉ back)
    (split : '_' :: back = middle ++ '_' :: back')
    : middle = [] := by
  cases middle with
  | nil => rfl
  | cons head rest =>
      have tail : back = rest ++ '_' :: back' := (List.cons.inj split).2
      exact absurd (by simp [tail]) last

/-- Two strings split at their last underscore in one way only. -/
theorem append_underscore_inj {front front' back back' : CString} (last : '_' ∉ back)
    (last' : '_' ∉ back') (same : front ++ '_' :: back = front' ++ '_' :: back')
    : front = front' ∧ back = back' := by
  rcases List.append_eq_append_iff.mp same with ⟨middle, longer, split⟩ | ⟨middle, longer, split⟩
  · have empty := middle_nil_of_underscore last split
    subst empty
    exact ⟨by simpa using longer.symm, (List.cons.inj split).2⟩
  · have empty := middle_nil_of_underscore last' split
    subst empty
    exact ⟨by simpa using longer, (List.cons.inj split).2.symm⟩

/-- An invoker's name determines its result and arguments: no digit is an underscore. -/
theorem genfname_injective {argc argc' : Nat} {r r' : Width} {seq seq' : List Width}
    (same : genfname argc r seq = genfname argc' r' seq')
    : r = r' ∧ seq = seq' := by
  have noUnderscore : ∀ seq : List Width, '_' ∉ seq.map Width.digit := by
    intro seq member
    obtain ⟨width, _, digit⟩ := List.mem_map.mp member
    cases width <;> simp [Width.digit] at digit
  obtain ⟨front, back⟩ := append_underscore_inj (noUnderscore seq) (noUnderscore seq') same
  refine ⟨?_, List.map_injective_iff.mpr Width.digit_injective back⟩
  have last := congrArg List.getLast? front
  simp only [List.getLast?_append, List.getLast?_cons_cons, List.getLast?_singleton,
    Option.some_or, Option.some.injEq] at last
  exact Width.digit_injective last

/-- The first generation loop emits exactly the invokers of nonempty signatures up to its
bound.
-/
theorem mem_invokers {maxargs : Nat} {invoker : Invoker}
    : invoker ∈ invokers maxargs
      ↔ ∃ r seq, 1 ≤ seq.length ∧ seq.length ≤ maxargs
          ∧ invoker = gen seq.length r seq := by
  simp only [invokers, List.mem_flatMap, List.mem_range'_1, mem_mkArgseq, List.mem_map]
  constructor
  · intro holds
    rcases holds with ⟨i, ⟨lower, upper⟩, seq, rfl, r, _, rfl⟩
    exact ⟨r, seq, lower, by omega, rfl⟩
  · intro holds
    rcases holds with ⟨r, seq, lower, upper, rfl⟩
    exact ⟨seq.length, ⟨lower, by omega⟩, seq, rfl, r, by cases r <;> simp, rfl⟩

/-- No invoker name is emitted twice: arities, sequences and results are each listed once,
and a name determines them.
-/
theorem invokers_names_nodup (maxargs : Nat)
    : ((invokers maxargs).map Invoker.fname).Nodup := by
  simp only [invokers, List.map_flatMap, List.map_map]
  refine List.nodup_flatMap.mpr ⟨?_, ?_⟩
  · intro i _
    refine List.nodup_flatMap.mpr ⟨?_, ?_⟩
    · intro seq _
      refine List.Nodup.map_on ?_ (by decide)
      intro r _ r' _ same
      exact (genfname_injective same).1
    · refine (mkArgseq_nodup i).imp ?_
      intro seq seq' different name first second
      obtain ⟨r, _, rfl⟩ := List.mem_map.mp first
      obtain ⟨r', _, same⟩ := List.mem_map.mp second
      exact different (genfname_injective same.symm).2
  · refine List.Pairwise.imp ?_ (List.nodup_range' (n := maxargs) (s := 1))
    intro i i' different name first second
    simp only [List.mem_flatMap, mem_mkArgseq, List.mem_map] at first second
    obtain ⟨seq, rfl, r, _, rfl⟩ := first
    obtain ⟨seq', rfl, r', _, same⟩ := second
    exact different (congrArg List.length (genfname_injective same.symm).2)

/-- Where a key occurs once, selecting by the key of a member gives that member alone. -/
theorem filter_key_eq_singleton {α β : Type} [DecidableEq β] {key : α → β} {items : List α}
    (distinct : (items.map key).Nodup) {item : α} (member : item ∈ items)
    : items.filter (fun other => key other = key item) = [item] := by
  induction items with
  | nil => cases member
  | cons head rest ih =>
      obtain ⟨absent, restDistinct⟩ := List.nodup_cons.mp distinct
      rcases List.mem_cons.mp member with rfl | later
      · have none : rest.filter (fun other => key other = key item) = [] := by
          refine List.filter_eq_nil_iff.mpr fun other inside => ?_
          have differs : key other ≠ key item := fun same =>
            absent (same ▸ List.mem_map_of_mem inside)
          simpa using differs
        simp [none]
      · have differs : key head ≠ key item := fun same =>
          absent (same ▸ List.mem_map_of_mem later)
        simpa [differs] using ih restDistinct later

-----------------------------------------------------------------------------------------
-- The dictionary and the dispatch table
-----------------------------------------------------------------------------------------

/-- Looking a key up after an update: a listed pair wins over the old dictionary. -/
theorem Dict.lookup_update {pairs : List (Nat × List Width)} {o : Nat} {seq : List Width}
    (dict : Dict) (single : ∀ pair ∈ pairs, pair.1 = o → pair.2 = seq)
    (listed : dict.lookup o = some seq ∨ (o, seq) ∈ pairs)
    : (dict.update pairs).lookup o = some seq := by
  induction pairs generalizing dict with
  | nil => simpa [Dict.update] using listed
  | cons pair rest ih =>
      refine ih (dict.insert pair.1 pair.2) (fun p member => single p (by simp [member])) ?_
      by_cases same : pair.1 = o
      · left
        rw [← same, AList.lookup_insert, single pair (by simp) same]
      · rw [AList.lookup_insert_ne (Ne.symm same)]
        rcases listed with before | member
        · exact Or.inl before
        · rcases List.mem_cons.mp member with rfl | later
          · exact absurd rfl same
          · exact Or.inr later

/-- Keys of an updated dictionary were there before or are listed. -/
theorem Dict.mem_update {pairs : List (Nat × List Width)} {dict : Dict} {o : Nat}
    (member : o ∈ dict.update pairs)
    : o ∈ dict ∨ ∃ pair ∈ pairs, pair.1 = o := by
  induction pairs generalizing dict with
  | nil => exact Or.inl (by simpa [Dict.update] using member)
  | cons pair rest ih =>
      have either : o ∈ dict.insert pair.1 pair.2 ∨ ∃ later ∈ rest, later.1 = o := ih member
      rcases either with inserted | ⟨later, inside, key⟩
      · rcases (AList.mem_insert dict).mp inserted with rfl | before
        · exact Or.inr ⟨pair, by simp, rfl⟩
        · exact Or.inl before
      · exact Or.inr ⟨later, by simp [inside], key⟩

/-- Codes with one result width determine their sequence among those of one length. -/
theorem encode_pairs_single {n o : Nat} {r : Width} {seq : List Width}
    (code : encode r seq = o) (length : seq.length = n)
    : ∀ pair ∈ (mkArgseq n).map fun seq => (encode r seq, seq), pair.1 = o → pair.2 = seq := by
  intro pair member key
  obtain ⟨other, listed, rfl⟩ := List.mem_map.mp member
  have same : encode r other = o := key
  have decoded := decode_encode r other
  rw [mem_mkArgseq.mp listed, ← length, same, ← code, decode_encode] at decoded
  exact (congrArg Prod.snd decoded).symm

/-- Pairs of the other result width have other codes. -/
theorem encode_pairs_absent {n o : Nat} {r other : Width} {seq : List Width}
    (code : encode r seq = o) (length : seq.length = n) (different : other ≠ r)
    : ∀ pair ∈ (mkArgseq n).map fun seq => (encode other seq, seq), pair.1 ≠ o := by
  intro pair member key
  obtain ⟨seq', listed, rfl⟩ := List.mem_map.mp member
  have same : encode other seq' = o := key
  have decoded := decode_encode other seq'
  rw [mem_mkArgseq.mp listed, ← length, same, ← code, decode_encode] at decoded
  exact different (congrArg Prod.fst decoded).symm

/-- `allfuns` has the argument sequence of every code below `2 ^ (n + 1)`. -/
theorem allfuns_lookup {n : Nat} {r : Width} {seq : List Width} (length : seq.length = n)
    : (allfuns n).lookup (encode r seq) = some seq := by
  have listed : (encode r seq, seq) ∈ (mkArgseq n).map fun seq => (encode r seq, seq) :=
    List.mem_map.mpr ⟨seq, mem_mkArgseq.mpr length, rfl⟩
  cases r with
  | w8 => exact Dict.lookup_update _ (encode_pairs_single rfl length) (Or.inr listed)
  | w4 =>
      refine Dict.lookup_update _ ?_ (Or.inl ?_)
      · intro pair member key
        exact absurd key (encode_pairs_absent rfl length (by decide) pair member)
      · exact Dict.lookup_update _ (encode_pairs_single rfl length) (Or.inr listed)

/-- The keys of `allfuns` are the codes below `2 ^ (n + 1)`. -/
theorem mem_allfuns {n o : Nat} : o ∈ allfuns n ↔ o < 2 ^ (n + 1) := by
  constructor
  · intro member
    have listed : ∃ r, ∃ pair ∈ (mkArgseq n).map fun seq => (encode r seq, seq),
        pair.1 = o := by
      rcases Dict.mem_update member with narrow | wide
      · rcases Dict.mem_update narrow with empty | narrow
        · exact absurd empty (AList.notMem_empty o)
        · exact ⟨.w4, narrow⟩
      · exact ⟨.w8, wide⟩
    obtain ⟨r, pair, inside, key⟩ := listed
    obtain ⟨seq, sized, rfl⟩ := List.mem_map.mp inside
    rw [← key, ← mem_mkArgseq.mp sized]
    exact encode_lt r seq
  · intro bound
    rw [← AList.lookup_isSome, ← encode_decode bound, allfuns_lookup (decode_length o n)]
    rfl

theorem allfuns_length (n : Nat) : (allfuns n).keys.length = 2 ^ (n + 1) := by
  have keys : (allfuns n).keys.Perm (List.range (2 ^ (n + 1))) := by
    refine (List.perm_ext_iff_of_nodup (allfuns n).keys_nodup List.nodup_range).mpr ?_
    intro o
    rw [← AList.mem_keys, mem_allfuns, List.mem_range]
  rw [keys.length_eq, List.length_range]

/-- The return width recovered from a code is the encoded one. -/
theorem returnWidth_encode (r : Width) (seq : List Width) : returnWidth (encode r seq) seq = r := by
  cases r with
  | w4 => exact if_pos rfl
  | w8 =>
      refine if_neg fun same => ?_
      have narrow := decode_encode .w4 seq
      rw [same, decode_encode] at narrow
      cases congrArg Prod.fst narrow

/-- The entry of the dispatch table at a signature's code is the name of its invoker. -/
theorem invokerTable_encode {n : Nat} {r : Width} {seq : List Width} (length : seq.length = n)
    : (invokerTable n)[encode r seq]? = some (some (genfname n r seq)) := by
  have inside : encode r seq < 2 ^ (n + 1) := length ▸ encode_lt r seq
  rw [invokerTable, List.getElem?_map, allfuns_length, List.getElem?_range inside]
  simp [allfuns_lookup length, returnWidth_encode]

theorem invokerTable_length (n : Nat) : (invokerTable n).length = 2 ^ (n + 1) := by
  simp [invokerTable, allfuns_length]

/-- No entry of a dispatch table is `NULL`. -/
theorem none_notMem_invokerTable (n : Nat) : none ∉ invokerTable n := by
  intro member
  obtain ⟨o, inside, missing⟩ := List.mem_map.mp member
  rw [allfuns_length, List.mem_range] at inside
  have found := allfuns_lookup (r := (decode o n).1) (decode_length o n)
  rw [encode_decode inside] at found
  simp [found] at missing

theorem Width.acceptable (width : Width) : acceptableArgSize width.size := by
  cases width <;> rfl

theorem Width.sizeBits_map (seq : List Width)
    : sizeBits (seq.map Width.size) = seq.map Width.isEight := by
  rw [sizeBits, List.map_map]
  apply List.map_congr_left
  intro width _
  cases width <;> rfl

/-- `computeOffset` and `encode` give one code, below the `MAX_ARGS` bound as a number. -/
theorem computeOffset_encode {func : FType} {r : Width} {seq : List Width}
    (args : func.numArgs = seq.length) (rv : func.rvSize = r.size)
    (widths : func.argWidths = seq.map Width.size) (bound : seq.length ≤ maxArgs)
    : ∃ offset, computeOffset func = some offset ∧ offset.toNat = encode r seq := by
  have sizes : func.argWidths ++ [func.rvSize] = (seq ++ [r]).map Width.size := by
    simp [widths, rv]
  have acceptable : ∀ size ∈ func.argWidths ++ [func.rvSize], acceptableArgSize size := by
    intro size member
    rw [sizes] at member
    obtain ⟨width, _, rfl⟩ := List.mem_map.mp member
    exact width.acceptable
  have fits : BitCode.value (sizeBits (func.argWidths ++ [func.rvSize])) < 2 ^ 32 := by
    refine sizeBits_value_lt ?_
    rw [sizes, List.length_map, List.length_append, List.length_singleton]
    omega
  refine ⟨_, computeOffset_eq (by rw [widths, List.length_map, args]) acceptable, ?_⟩
  rw [BitVec.toNat_ofNat, Nat.mod_eq_of_lt fits, sizes, Width.sizeBits_map, encode_eq_value,
    List.map_append, List.map_singleton]

end Labrea
