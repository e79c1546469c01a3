import CellBag.Bag.Header
import CellBag.Proofs.Bag.Scan

/-!
# Header codec

`Header.layout` are the bytes of a header. They are written when every number fits its field
(`Header.bytes_eq_ok`), and read back when the header is acceptable within the limits, which it is
from no others (`Header.scan_eq_ok`). No other header begins the same bytes (`Header.layout_inj`).
-/

namespace CellBag.Bag.Header

/-- The bytes of a header. -/
def layout (h : Header) : List UInt8 :=
  Octets.ofNat 4 magic ++ ([flags h.options h.refSize] ++ ([UInt8.ofNat h.offsetSize] ++
    (Octets.ofNat h.refSize h.cellCount ++ (Octets.ofNat h.refSize h.roots.length ++
      (Octets.ofNat h.refSize 0 ++ (Octets.ofNat h.offsetSize h.totalSize ++
        h.roots.flatMap (Octets.ofNat h.refSize)))))))

/-- The numbers of a header fit their fields. -/
structure Fits (h : Header) : Prop where
  cellCount_lt : h.cellCount < 256 ^ h.refSize
  rootCount_lt : h.roots.length < 256 ^ h.refSize
  totalSize_lt : h.totalSize < 256 ^ h.offsetSize
  roots_lt : ∀ root ∈ h.roots, root < 256 ^ h.refSize

/-- A header is written if its numbers fit. -/
lemma bytes_eq_ok {h : Header} {xs : List UInt8} : h.bytes = .ok xs ↔ h.Fits ∧ xs = h.layout := by
  simp only [bytes, Outcome.bind_eq_ok, Outcome.pure_eq_ok, fields_eq_ok, field_eq_ok]
  constructor
  · rintro ⟨_, ⟨counts, rfl⟩, _, ⟨total, rfl⟩, _, ⟨roots, rfl⟩, rfl⟩
    refine ⟨⟨counts _ (by simp), counts _ (by simp), total, roots⟩, ?_⟩
    simp [layout]
  · rintro ⟨⟨cells, rootCount, total, roots⟩, rfl⟩
    refine ⟨_, ⟨?_, rfl⟩, _, ⟨total, rfl⟩, _, ⟨roots, rfl⟩, by simp [layout]⟩
    simp only [List.mem_cons, List.not_mem_nil, or_false]
    rintro n (rfl | rfl | rfl)
    · exact cells
    · exact rootCount
    · exact Nat.pow_pos (by decide)

/-- The flags and the size of references do not overlap, so that each can be read off their byte. -/
lemma eq_flags {b : UInt8} {o : Options} {refSize : Nat} (few : refSize < 8) :
    b = flags o refSize ↔
      (⟨b.toNat.testBit 7, b.toNat.testBit 6, b.toNat.testBit 5⟩ : Options) = o ∧
        b.toNat.testBit 4 = false ∧ b.toNat.testBit 3 = false ∧ b.toNat % 8 = refSize := by
  obtain ⟨index, checksum, cacheBits⟩ := o
  have value : (flags ⟨index, checksum, cacheBits⟩ refSize).toNat =
      index.toNat * 128 + checksum.toNat * 64 + cacheBits.toNat * 32 + refSize := by
    rw [flags, UInt8.toNat_ofNat', Nat.mod_eq_of_lt]
    · cases index <;> cases checksum <;> cases cacheBits <;> rfl
    · cases index <;> cases checksum <;> cases cacheBits <;>
        simp only [Bool.false_eq_true, if_true, if_false] <;> omega
  have bit {x : Bool} {n : Nat} : decide (n % 2 = 1) = x ↔ n % 2 = x.toNat := by
    cases x <;> simp
  rw [← UInt8.toNat_inj, value, Options.mk.injEq]
  simp only [Nat.testBit_eq_decide_div_mod_eq, bit, Bool.toNat_false]
  have := index.toNat_lt
  have := checksum.toNat_lt
  have := cacheBits.toNat_lt
  have := b.toNat_lt
  omega

variable {c c' : Cursor}

/-- The flags and the size of references are read from their byte. -/
lemma scanFlags_eq_ok {o : Options} {refSize : Nat} :
    scanFlags c = .ok ((o, refSize), c') ↔
      (o.cacheBits = true → o.index = true) ∧ 0 < refSize ∧ refSize ≤ maxRefSize ∧
        Between c [flags o refSize] c' := by
  have le : maxRefSize < 8 := by decide
  simp only [scanFlags, Scan.bind_eq_ok, Scan.byte_eq_ok, Scan.guard_eq_ok, Scan.pure_eq_ok,
    Prod.mk.injEq]
  constructor
  · rintro ⟨b, _, between, clear, cache, size, ⟨rfl, rfl⟩, rfl⟩
    have size : 0 < b.toNat % 8 ∧ b.toNat % 8 ≤ maxRefSize := by omega
    rw [not_or, Bool.not_eq_true, Bool.not_eq_true] at clear
    rw [← (eq_flags (by omega)).2 ⟨rfl, clear.1, clear.2, rfl⟩]
    exact ⟨fun h => by_contra fun h' => cache ⟨h, h'⟩, size.1, size.2, between⟩
  · rintro ⟨cache, pos, few, between⟩
    obtain ⟨options, four, three, size⟩ := (eq_flags (by omega)).1 (Eq.refl (flags o refSize))
    have index := congrArg Options.index options
    have cacheBits := congrArg Options.cacheBits options
    dsimp only at index cacheBits
    refine ⟨_, c', between, ?_, ?_, ?_, ⟨options, size⟩, rfl⟩
    · rw [four, three]
      simp
    · rw [index, cacheBits]
      exact fun h => h.2 (cache h.1)
    · omega

/-- The roots are read from their bytes, and are cells of the bag. -/
lemma scanRoots_eq_ok {refSize cellCount count : Nat} {roots : List Nat} :
    scanRoots refSize cellCount count c = .ok (roots, c') ↔
      roots.length = count ∧ (∀ r ∈ roots, r < cellCount ∧ r < 256 ^ refSize) ∧
        Between c (roots.flatMap (Octets.ofNat refSize)) c' := by
  induction count generalizing roots c with
  | zero =>
    rw [scanRoots, Scan.pure_eq_ok, List.length_eq_zero_iff]
    constructor
    · rintro ⟨rfl, rfl⟩
      exact ⟨rfl, List.forall_mem_nil _, Scan.between_nil.2 rfl⟩
    · rintro ⟨rfl, _, between⟩
      exact ⟨rfl, Scan.between_nil.1 between⟩
  | succ count ih =>
    simp only [scanRoots, Scan.bind_eq_ok, Scan.nat_eq_ok, Scan.guard_eq_ok, Scan.pure_eq_ok,
      Nat.not_le]
    constructor
    · rintro ⟨r, c₁, ⟨fits, first⟩, lt, later, c₂, e, rfl, rfl⟩
      obtain ⟨rfl, lts, others⟩ := ih.1 e
      refine ⟨rfl, List.forall_mem_cons.2 ⟨⟨lt, fits⟩, lts⟩, ?_⟩
      rw [List.flatMap_cons]
      exact Scan.between_append.2 ⟨_, first, others⟩
    · rintro ⟨len, lts, between⟩
      obtain ⟨r, later, rfl⟩ := List.exists_cons_of_length_eq_add_one len
      rw [List.flatMap_cons] at between
      obtain ⟨c₁, first, others⟩ := Scan.between_append.1 between
      obtain ⟨⟨lt, fits⟩, lts⟩ := List.forall_mem_cons.1 lts
      exact ⟨r, c₁, ⟨fits, first⟩, lt, later, c', ih.2 ⟨Nat.succ.inj len, lts, others⟩, rfl, rfl⟩

/-- What is asked of a header: sizes and counts in their ranges and within the limits, and roots
that are cells of the bag. -/
structure Acceptable (limits : Limits) (h : Header) : Prop where
  fits : h.Fits
  cache : h.options.cacheBits = true → h.options.index = true
  refSize_pos : 0 < h.refSize
  refSize_le : h.refSize ≤ maxRefSize
  offsetSize_pos : 0 < h.offsetSize
  offsetSize_le : h.offsetSize ≤ maxOffsetSize
  cellCount_le : h.cellCount ≤ limits.maxCells
  roots_ne : h.roots ≠ []
  rootCount_le : h.roots.length ≤ min limits.maxRoots h.cellCount
  le_totalSize : h.cellCount * minRecordSize ≤ h.totalSize
  totalSize_le : h.totalSize ≤ min (h.cellCount * maxRecordSize) limits.maxTotalSize
  roots_lt : ∀ root ∈ h.roots, root < h.cellCount

/-- A header is read from its bytes, if it is acceptable, whatever follows them, and from no
others. -/
theorem scan_eq_ok {limits : Limits} {h : Header} :
    scan limits c = .ok (h, c') ↔ h.Acceptable limits ∧ Between c h.layout c' := by
  simp only [scan, Scan.bind_eq_ok, Scan.nat_eq_ok, Scan.guard_eq_ok, Scan.byte_eq_ok, Prod.exists,
    scanFlags_eq_ok, scanRoots_eq_ok, Scan.pure_eq_ok, layout, Scan.between_append]
  constructor
  · rintro ⟨_, c₁, ⟨_, b₁⟩, em, o, refSize, c₂, ⟨cache, rpos, rle, b₂⟩, b, c₃, b₃, offset, n, c₄,
      ⟨nlt, b₄⟩, rootCount, c₅, ⟨rlt, b₅⟩, absent, c₆, ⟨_, b₆⟩, total, c₇, ⟨tlt, b₇⟩, cells, rc, none,
      size, roots, c₈, ⟨rfl, each, b₈⟩, rfl, rfl⟩
    -- what the guards let through are the bounds of an acceptable header
    cases not_not.1 em
    cases Nat.eq_zero_of_not_pos none
    have fits : Fits ⟨o, refSize, b.toNat, n, total, roots⟩ :=
      ⟨nlt, rlt, tlt, fun r mem => (each r mem).2⟩
    have nonempty : roots ≠ [] := by
      rintro rfl
      exact rc (Or.inl rfl)
    refine ⟨⟨fits, cache, rpos, rle, ?_, ?_, Nat.not_lt.1 cells, nonempty, ?_, ?_, ?_,
      fun r mem => (each r mem).1⟩, c₁, b₁, c₂, b₂, c₃, ?_, c₄, b₄, c₅, b₅, c₆, b₆, c₇, b₇, b₈⟩
    · dsimp only; omega
    · dsimp only; omega
    · dsimp only; omega
    · dsimp only; omega
    · dsimp only; omega
    · rwa [UInt8.ofNat_toNat]
  · rintro ⟨⟨⟨nlt, rlt, tlt, fits⟩, cache, rpos, rle, opos, ole, cells, rne, rc, lower, upper, each⟩, c₁,
      b₁, c₂, b₂, c₃, b₃, c₄, b₄, c₅, b₅, c₆, b₆, c₇, b₇, b₈⟩
    have rpos' : 0 < h.roots.length := List.length_pos_iff.2 rne
    have byte : (UInt8.ofNat h.offsetSize).toNat = h.offsetSize := by
      have le : h.offsetSize ≤ 8 := ole
      rw [UInt8.toNat_ofNat', Nat.mod_eq_of_lt]
      omega
    refine ⟨magic, c₁, ⟨by decide, b₁⟩, fun ne => ne rfl, h.options, h.refSize, c₂,
      ⟨cache, rpos, rle, b₂⟩, _, c₃, b₃, ?_⟩
    rw [byte]
    refine ⟨?_, _, c₄, ⟨nlt, b₄⟩, _, c₅, ⟨rlt, b₅⟩, 0, c₆, ⟨Nat.pow_pos (by decide), b₆⟩, _, c₇,
      ⟨tlt, b₇⟩, ?_, ?_, Nat.lt_irrefl 0, ?_, _, c',
      ⟨rfl, fun r mem => ⟨each r mem, fits r mem⟩, b₈⟩, rfl, rfl⟩
    · omega
    · omega
    · omega
    · omega

/-- The numbers of a header fit their fields, and the sizes of these fit theirs. -/
structure Sized (h : Header) : Prop extends h.Fits where
  refSize_lt : h.refSize < 8
  offsetSize_lt : h.offsetSize < 256

/-- The options and the width of references can be told from the flags. -/
lemma flags_inj {o o' : Options} {refSize refSize' : Nat} (few : refSize < 8) (few' : refSize' < 8)
    (e : flags o refSize = flags o' refSize') : o = o' ∧ refSize = refSize' := by
  obtain ⟨options, _, _, size⟩ := (eq_flags few).1 rfl
  obtain ⟨options', _, _, size'⟩ := (eq_flags few').1 e
  exact ⟨options.symm.trans options', size.symm.trans size'⟩

/-- A header is determined by any bytes that begin with it. -/
theorem layout_inj {h h' : Header} {xs ys : List UInt8} (s : h.Sized) (s' : h'.Sized)
    (e : h.layout ++ xs = h'.layout ++ ys) : h = h' ∧ xs = ys := by
  obtain ⟨o, refSize, offsetSize, cellCount, totalSize, roots⟩ := h
  obtain ⟨o', refSize', offsetSize', cellCount', totalSize', roots'⟩ := h'
  obtain ⟨⟨cells, count, total, fits⟩, few, narrow⟩ := s
  obtain ⟨⟨cells', count', total', fits'⟩, few', narrow'⟩ := s'
  dsimp only at cells count total fits few narrow cells' count' total' fits' few' narrow'
  simp only [layout, List.append_assoc] at e
  obtain ⟨flags, sizes⟩ := List.cons.inj (List.append_cancel_left e)
  obtain ⟨offset, counts⟩ := List.cons.inj sizes
  obtain ⟨rfl, rfl⟩ := flags_inj few few' flags
  have same : offsetSize = offsetSize' := by
    have e := congrArg UInt8.toNat offset
    rwa [UInt8.toNat_ofNat', UInt8.toNat_ofNat', Nat.mod_eq_of_lt narrow,
      Nat.mod_eq_of_lt narrow'] at e
  subst same
  obtain ⟨rfl, roots⟩ := Octets.ofNat_append_inj cells cells' counts
  obtain ⟨len, absent⟩ := Octets.ofNat_append_inj count count' roots
  obtain ⟨rfl, named⟩ := Octets.ofNat_append_inj total total' (List.append_cancel_left absent)
  obtain ⟨rfl, rest⟩ := Octets.flatMap_ofNat_append_inj len fits fits' named
  exact ⟨rfl, rest⟩

/-- A header that is accepted has sizes within the bounds. -/
lemma Acceptable.sized {limits : Limits} {h : Header} (a : h.Acceptable limits) : h.Sized :=
  ⟨a.fits, Nat.lt_of_le_of_lt a.refSize_le (by decide),
    Nat.lt_of_le_of_lt a.offsetSize_le (by decide)⟩

end CellBag.Bag.Header
