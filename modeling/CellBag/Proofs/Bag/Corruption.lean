import CellBag.Proofs.Bag.Roots
import CellBag.Proofs.Checksum
import Mathlib

/-!
# Changed bits

No bag with a checksum becomes another bag when one of its bits is changed (`decode_flipBit`). If
the changed bytes announce a checksum, it is that of as many bytes as before, and the checksums of
bytes that differ in one byte differ. If they do not, the changed bit is the one that announces it,
and the four bytes of the checksum are left over.
-/

namespace CellBag.Bag

/-- Bytes with one bit changed; bits are counted from the lowest one of the first byte. -/
def flipBit (data : List UInt8) (i : Nat) : List UInt8 :=
  data.modify (i / 8) (· ^^^ UInt8.ofNat (2 ^ (i % 8)))

/-- A flipped bit changes one byte and leaves those around it. -/
lemma exists_flipBit {data : List UInt8} {i : Nat} (lt : i < 8 * data.length) :
    ∃ pre b post, data = pre ++ b :: post ∧
      flipBit data i = pre ++ (b ^^^ UInt8.ofNat (2 ^ (i % 8))) :: post := by
  have lt : i / 8 < data.length := by omega
  refine ⟨data.take (i / 8), data[i / 8], data.drop (i / 8 + 1), ?_, ?_⟩
  · rw [List.getElem_cons_drop, List.take_append_drop]
  · rw [flipBit, List.modify_eq_take_cons_drop lt]

/-- Only the flipped bit of a byte changes. -/
lemma testBit_xor_two_pow (b : UInt8) {m : Nat} (lt : m < 8) (k : Nat) :
    (b ^^^ UInt8.ofNat (2 ^ m)).toNat.testBit k = (b.toNat.testBit k ^^ decide (m = k)) := by
  have small : 2 ^ m < 2 ^ 8 := Nat.pow_lt_pow_right (by decide) lt
  rw [UInt8.toNat_xor, UInt8.toNat_ofNat', Nat.mod_eq_of_lt small, Nat.testBit_xor,
    Nat.testBit_two_pow]

/-- A byte with a flipped bit is another byte. -/
lemma xor_two_pow_ne (b : UInt8) {m : Nat} (lt : m < 8) : b ≠ b ^^^ UInt8.ofNat (2 ^ m) := by
  intro e
  have bit := testBit_xor_two_pow b lt m
  rw [← e, decide_eq_true rfl, Bool.xor_true] at bit
  exact (Bool.eq_not_self _).1 bit

/-- Two lists that differ in one place differ there, if they do anywhere. -/
lemma eq_or_of_append_cons {α : Type} {front pre post xs ys : List α} {x y a b : α}
    (e : front ++ x :: xs = pre ++ a :: post) (e' : front ++ y :: ys = pre ++ b :: post) :
    x = y ∨ x = a ∧ y = b ∧ xs = ys := by
  induction front generalizing pre with
  | nil =>
    cases pre with
    | nil =>
      cases e
      cases e'
      exact Or.inr ⟨rfl, rfl, rfl⟩
    | cons p pre =>
      cases e
      cases e'
      exact Or.inl rfl
  | cons f front ih =>
    cases pre with
    | nil =>
      obtain ⟨_, rest⟩ := List.cons.inj e
      obtain ⟨_, rest'⟩ := List.cons.inj e'
      exact Or.inl (List.cons.inj (List.append_cancel_left (rest.trans rest'.symm))).1
    | cons p pre => exact ih (List.cons.inj e).2 (List.cons.inj e').2

/-- Equal bytes of checksums are those of equal checksums. -/
lemma checksumBytes_inj {xs ys : List UInt8} (e : checksumBytes xs = checksumBytes ys) :
    Crc32.checksum xs = Crc32.checksum ys := by
  have same := congrArg Octets.toNat (List.reverse_injective e)
  rw [Octets.toNat_ofNat_of_lt (UInt32.toNat_lt _),
    Octets.toNat_ofNat_of_lt (UInt32.toNat_lt _)] at same
  exact UInt32.toNat_inj.1 same

/-- Bytes that end with their checksum do not differ in a single byte. -/
lemma eq_of_checksumBytes {xs ys pre post : List UInt8} {a b : UInt8}
    (e : xs ++ checksumBytes xs = pre ++ a :: post)
    (e' : ys ++ checksumBytes ys = pre ++ b :: post) : a = b := by
  have length : xs.length = ys.length := by
    have len := congrArg List.length e
    have len' := congrArg List.length e'
    simp only [List.length_append, List.length_cons, checksumBytes, List.length_reverse,
      Octets.length_ofNat] at len len'
    omega
  rcases List.append_eq_append_iff.1 e with ⟨mid, rfl, here⟩ | ⟨mid, front, here⟩
  · -- the byte is one of the checksum, so that the checksum is that of the same bytes
    rw [List.append_assoc] at e'
    obtain ⟨rfl, there⟩ := List.append_inj e' length.symm
    exact (List.cons.inj (List.append_cancel_left (here.symm.trans there))).1
  · cases mid with
    | nil =>
      rw [List.append_nil] at front
      subst front
      obtain ⟨rfl, there⟩ := List.append_inj e' length.symm
      exact (List.cons.inj (here.trans there)).1
    | cons c mid =>
      -- the byte stands before the checksum, and what follows it is the same
      obtain ⟨rfl, rfl⟩ := List.cons.inj here
      subst front
      rw [show b :: mid.append _ = b :: mid ++ _ from rfl, ← List.append_assoc] at e'
      obtain ⟨rfl, there⟩ := List.append_inj e' (by rw [← length]; simp)
      exact Crc32.checksum_change.1 (checksumBytes_inj there).symm

namespace Header

/-- The only bit that takes the announcement of a checksum back is the one that makes it. -/
lemma eq_of_flags_xor {o o' : Options} {refSize refSize' m : Nat} (lt : m < 8)
    (few : refSize < 8) (few' : refSize' < 8) (on : o.checksum = true) (off : o'.checksum = false)
    (e : flags o' refSize' = flags o refSize ^^^ UInt8.ofNat (2 ^ m)) :
    o' = { o with checksum := false } ∧ refSize' = refSize := by
  obtain ⟨index, checksum, cacheBits⟩ := o
  obtain ⟨index', checksum', cacheBits'⟩ := o'
  obtain ⟨options, _, _, size⟩ := (eq_flags (o := ⟨index, checksum, cacheBits⟩) few).1 rfl
  obtain ⟨options', _, _, size'⟩ := (eq_flags few').1 e.symm
  simp only [Options.mk.injEq, testBit_xor_two_pow _ lt] at options options'
  obtain ⟨seven, six, five⟩ := options
  rw [seven, six, five] at options'
  obtain ⟨seven', six', five'⟩ := options'
  -- the sixth bit has changed, and no other one has
  have bit : m = 6 := by
    rw [show checksum = true from on, show checksum' = false from off, Bool.true_xor,
      Bool.not_eq_false', decide_eq_true_eq] at six'
    exact six'
  subst bit
  constructor
  · rw [Options.mk.injEq]
    exact ⟨by rw [← seven']; exact Bool.xor_false _, off, by rw [← five']; exact Bool.xor_false _⟩
  · rw [UInt8.toNat_xor, show 8 = 2 ^ 3 from rfl, Nat.xor_mod_two_pow] at size'
    rw [← size', show 2 ^ 3 = 8 from rfl, size]
    exact Nat.xor_zero _

/-- The options of a header take part in the flags only. -/
lemma exists_layout_eq (h : Header) (o : Options) :
    ∃ tail, h.layout = Octets.ofNat 4 magic ++ flags h.options h.refSize :: tail ∧
      layout { h with options := o } = Octets.ofNat 4 magic ++ flags o h.refSize :: tail :=
  ⟨_, rfl, rfl⟩

end Header

namespace Image
variable {i j : Image}

/-- An image with a checksum and any other one do not differ in a single bit. -/
lemma ne_of_flip {pre post : List UInt8} {b : UInt8} {m : Nat} (lt : m < 8) (vi : i.ValidIndex)
    (vj : j.ValidIndex) (si : i.header.Sized) (sj : j.header.Sized)
    (on : i.options.checksum = true) (e : i.bytes = pre ++ b :: post) :
    j.bytes ≠ pre ++ (b ^^^ UInt8.ofNat (2 ^ m)) :: post := by
  intro e'
  cases off : j.options.checksum with
  | true =>
    rw [bytes, if_pos on] at e
    rw [bytes, if_pos off] at e'
    exact xor_two_pow_ne b lt (eq_of_checksumBytes e e')
  | false =>
    obtain ⟨tail, here, changed⟩ := i.header.exists_layout_eq j.options
    obtain ⟨tail', there, _⟩ := j.header.exists_layout_eq j.options
    obtain ⟨rest, ei⟩ := i.exists_bytes_eq
    obtain ⟨rest', ej⟩ := j.exists_bytes_eq
    have li := vi.length_bytes
    have lj := vj.length_bytes
    rw [ei, List.length_append, Nat.add_left_cancel_iff] at li
    rw [ej, List.length_append, Nat.add_left_cancel_iff] at lj
    rw [ei, here, List.append_assoc, List.cons_append] at e
    rw [ej, there, List.append_assoc, List.cons_append] at e'
    rcases eq_or_of_append_cons e e' with same | ⟨rfl, flipped, same⟩
    · have options := (Header.flags_inj si.refSize_lt sj.refSize_lt same).1
      rw [show i.options = j.options from options, off] at on
      cases on
    · -- the header is the same without the announcement, so that four bytes are left over
      obtain ⟨options, size⟩ := Header.eq_of_flags_xor lt si.refSize_lt sj.refSize_lt on off flipped
      have begins : Header.layout { i.header with options := j.options } ++ rest =
          j.header.layout ++ rest' := by
        rw [changed, there, List.append_assoc, List.cons_append, same, List.append_assoc,
          List.cons_append, ← size]
        rfl
      have sized : Header.Sized { i.header with options := j.options } :=
        ⟨⟨si.cellCount_lt, si.rootCount_lt, si.totalSize_lt, si.roots_lt⟩, si.refSize_lt,
          si.offsetSize_lt⟩
      obtain ⟨header, rfl⟩ := Header.layout_inj sized sj begins
      have required : j.header.required + 4 = i.header.required := by
        rw [← header]
        have options : j.options = { i.options with checksum := false } := options
        simp only [Header.required, options, Image.header, on]
        rfl
      omega

end Image

/-- A bag that was written with a checksum is not read when any one of its bits has been changed,
under no limits. -/
theorem decode_flipBit {roots : List Cell} {o : Options} {bytes : List UInt8} {i : Nat}
    (built : ∀ r ∈ roots, r.Built) (checksum : o.checksum = true)
    (written : encode roots o = .ok bytes) (bit : i < 8 * bytes.length) (limits : Limits) :
    ∃ fault, decode (flipBit bytes i) limits = .error fault := by
  obtain ⟨im, w, rfl⟩ := exists_written built written
  obtain ⟨pre, b, post, e, flipped⟩ := exists_flipBit bit
  cases run : decode (flipBit im.bytes i) limits with
  | error fault => exact ⟨fault, rfl⟩
  | ok read =>
    obtain ⟨j, vj, ej⟩ := exists_image_of_decode run
    rw [flipped] at ej
    exact absurd ej (Image.ne_of_flip (Nat.mod_lt i (by decide)) w.validIndex vj.toValidIndex
      w.sized vj.header.sized (w.options_eq ▸ checksum) e)

/-- A leaf in a bag with an index, cache bits and a checksum is not read when the bit that announces
the checksum has been changed. -/
theorem decode_flipBit_leaf :
    ∃ leaf bytes, Cell.leaf [0x2A] 8 = .ok leaf ∧ encode [leaf] ⟨true, true, true⟩ = .ok bytes ∧
      38 < 8 * bytes.length ∧ ∃ fault, decode (flipBit bytes 38) {} = .error fault := by
  have run : (do let _ ← Cell.leaf [0x2A] 8 : Except Error Unit) = .ok () := by decide +kernel
  obtain ⟨leaf, el, _⟩ := Outcome.bind_eq_ok.1 run
  have none := Cell.refs_of_leaf el
  have once : ∀ r ∈ [leaf], r = leaf := by simp
  have built : ∀ r ∈ [leaf], r.Built := by simp [Cell.Built.leaf el]
  have ne : [leaf] ≠ [] := List.cons_ne_nil _ _
  have card := card_reachable_eq_one none once ne
  obtain ⟨bytes, written⟩ := (@exists_encode_iff _ ⟨true, true, true⟩ built
    (hashesApart_of_leaf none once) (fun _ => rfl) ne).2
      ⟨by omega, by rw [card]; exact lt_byteWidth 1⟩
  have long : 38 < 8 * bytes.length := by
    obtain ⟨i, _, rfl⟩ := exists_written built written
    obtain ⟨rest, e⟩ := i.exists_bytes_eq
    obtain ⟨tail, front, _⟩ := i.header.exists_layout_eq i.options
    rw [e, front]
    simp only [List.length_append, List.length_cons, Octets.length_ofNat]
    omega
  exact ⟨leaf, bytes, el, written, long, decode_flipBit built rfl written long {}⟩

end CellBag.Bag
