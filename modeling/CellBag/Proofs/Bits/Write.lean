import CellBag.Address.Basic
import CellBag.Proofs.Outcome
import CellBag.Proofs.TwosComplement
import Mathlib

/-!
# Written bits

Every write appends one list of bits, its spelling, if there is one and there is room for it
(`Bits.Write.run_eq`). The spellings are the bits that denote the value of the write, with the most
significant bit first (`Bits.Write.spelling_eq_ok`).
-/

namespace CellBag.Bits

/-- The writes that append to a bit string, with what they write. -/
inductive Write where
  | bit (bit : Bool)
  | repeated (bit : Bool) (count : Nat)
  | bits (source : List UInt8) (count : Nat)
  | all (other : Bits)
  | bytes (bytes : List UInt8)
  | text (text : String)
  | word (word : BitVec 64) (width : Nat)
  | wide (word : BitVec 128) (width : Nat)
  | signedWord (word : BitVec 64) (width : Nat)
  | nat (n width : Nat)
  | int (i : Int) (width : Nat)
  | coins (amount : BitVec 128)
  | address (address : Option Address)

namespace Write

/-- What a write does to a bit string. -/
def run : Write → Bits → Except Error Bits
  | bit value, b => b.writeBit value
  | repeated value count, b => b.writeRepeated value count
  | bits source count, b => b.writeBits source count
  | all other, b => b.writeAll other
  | bytes value, b => b.writeBytes value
  | text value, b => b.writeText value
  | word value width, b => b.writeWord value width
  | wide value width, b => b.writeWide value width
  | signedWord value width, b => b.writeSignedWord value width
  | nat n width, b => b.writeNat n width
  | int i width, b => b.writeInt i width
  | coins amount, b => b.writeCoins amount
  | address value, b => b.writeAddress value

/-- What a write plans. -/
def plan : Write → Except Error Plan
  | bit value => .ok (.ofBits [value])
  | repeated value count => .ok (.repeated value count)
  | bits source count => Plan.range source 0 count count
  | all other => .ok (.ofBits other.toList)
  | bytes value => Plan.range value 0 (8 * value.length) (8 * value.length)
  | text value =>
    Plan.range (Text.utf8 value) 0 (8 * (Text.utf8 value).length) (8 * (Text.utf8 value).length)
  | word value width => Plan.word value width
  | wide value width => Plan.wide value width
  | signedWord value width => Plan.signedWord value width
  | nat n width => Plan.nat n width
  | int i width => Plan.int i width
  | coins amount => Plan.coins amount
  | address none => .ok (.ofBits Address.noneBits)
  | address (some a) => .ok (.ofBits a.bits)

/-- The first bits of some bytes, unless they are too few. -/
def frontOf (source : List UInt8) (count : Nat) : Except Error (List Bool) :=
  if count ≤ 8 * source.length then .ok ((Octets.unpack source).take count)
  else .error (.underrun .bits count (8 * source.length))

/-- The numeral of a word, unless a one is cut off. -/
def numeralOf {w : Nat} (value : BitVec w) (width : Nat) : Except Error (List Bool) :=
  if width < w ∧ value >>> width ≠ 0 then .error (.intOverflow width)
  else .ok (Binary.ofWord (value.setWidth width))

/-- The bits that a write appends, unless its value does not fit. -/
def spelling : Write → Except Error (List Bool)
  | bit value => .ok [value]
  | repeated value count => .ok (List.replicate count value)
  | bits source count => frontOf source count
  | all other => .ok other.toList
  | bytes value => frontOf value (8 * value.length)
  | text value => frontOf (Text.utf8 value) (8 * (Text.utf8 value).length)
  | word value width => numeralOf value width
  | wide value width => numeralOf value width
  | signedWord value width =>
    if fitsSigned value width then .ok (Binary.ofWord (value.signExtend width))
    else .error (.intOverflow width)
  | nat n width =>
    if width < Binary.width n then .error (.intOverflow width) else .ok (Binary.ofNat width n)
  | int i width =>
    if fitsInt i width then .ok (Binary.ofInt width i) else .error (.intOverflow width)
  | coins amount =>
    let size := Binary.octetsFor (Binary.width amount.toNat)
    if coinsWidth < 8 * size then .error (.intOverflow coinsWidth)
    else .ok (Binary.ofNat 4 size ++ Binary.ofNat (8 * size) amount.toNat)
  | address none => .ok Address.noneBits
  | address (some a) => .ok a.bits

section Plans

/-- Room for bits is asked for by appending them as well. -/
lemma ensure_append (b : Bits) {xs : List Bool} {n : Nat} (len : xs.length = n) :
    (do b.ensure n; b.append xs) = b.append xs := by
  subst len
  rw [ensure, append]
  split
  · rfl
  · rfl

/-- Given bits are appended as they are. -/
lemma follow_ofBits (b : Bits) (xs : List Bool) : b.follow (.ok (.ofBits xs)) = b.append xs :=
  ensure_append b rfl

/-- A plan that asks for as much room as it needs plans given bits. -/
lemma eq_ofBits {p : Plan} {xs : List Bool} (made : p.bits () = xs) (room : xs.length = p.room) :
    p = Plan.ofBits xs := by
  obtain ⟨count, bits⟩ := p
  have same : bits = fun _ => xs := funext fun _ => made
  subst same
  subst room
  rfl

/-- The first bits of some bytes are planned as they are. -/
lemma range_eq (source : List UInt8) (count : Nat) :
    Plan.range source 0 count count = (frontOf source count).map .ofBits := by
  rw [Plan.range, frontOf]
  split
  case isTrue within =>
    refine congrArg Except.ok (eq_ofBits rfl ?_)
    rw [List.length_take, Octets.length_unpack]
    exact Nat.min_eq_left within
  case isFalse => rfl

/-- The low bits of a word are its numeral. -/
lemma lowBits_eq (value : BitVec 64) (count : Nat) :
    lowBits value count = Binary.ofNat count value.toNat := by
  rw [lowBits, ← Binary.map_testBit]
  exact List.map_congr_left fun i _ => Binary.and_one_of_shift value i

/-- The zeros in front of a word and its low bits are its numeral. -/
lemma word_eq (value : BitVec 64) (width : Nat) :
    Plan.word value width = (numeralOf value width).map .ofBits := by
  rw [Plan.word, numeralOf, Binary.ofWord_setWidth]
  split
  case isTrue => rfl
  case isFalse =>
    refine congrArg Except.ok (eq_ofBits ?_ (Binary.length_ofNat _ _))
    dsimp only
    split
    case isTrue wider =>
      have numeral := Binary.ofNat_of_lt (k := width - 64) value.isLt
      rw [Nat.sub_add_cancel (Nat.le_of_lt wider)] at numeral
      rw [lowBits_eq, numeral]
    case isFalse => exact lowBits_eq value width

/-- A wide word has no ones above its bits. -/
lemma wide_eq (value : BitVec 128) (width : Nat) :
    Plan.wide value width = (numeralOf value width).map .ofBits := by
  rw [Plan.wide, numeralOf, Binary.ofWord_setWidth]
  split
  case isTrue => rfl
  case isFalse =>
    refine congrArg Except.ok (eq_ofBits ?_ (Binary.length_ofNat _ _))
    rw [← Binary.map_testBit]
    refine List.map_congr_left fun i _ => ?_
    rw [Binary.and_one_of_shift]
    rcases Nat.lt_or_ge i 128 with below | above
    · rw [decide_eq_true below, Bool.true_and]
    · have high := Nat.pow_le_pow_right (by decide : 0 < 2) above
      rw [decide_eq_false (Nat.not_lt.2 above), Bool.false_and,
        Nat.testBit_lt_two_pow (Nat.lt_of_lt_of_le value.isLt high)]

/-- The copies of its sign in front of a word and its low bits are the word with its sign
extended. -/
lemma signedWord_eq (value : BitVec 64) (width : Nat) :
    Plan.signedWord value width = (signedWord value width).spelling.map .ofBits := by
  rw [Plan.signedWord, spelling]
  split
  case isTrue =>
    refine congrArg Except.ok (eq_ofBits ?_ (Binary.length_ofWord _))
    dsimp only
    split
    case isTrue wider =>
      have extended := Binary.ofWord_signExtend value (width - 64)
      rw [Nat.sub_add_cancel (Nat.le_of_lt wider)] at extended
      have sign : value.slt 0 = value.msb := BitVec.slt_zero_eq_msb
      rw [lowBits_eq, extended, sign]
      rfl
    case isFalse narrow =>
      rw [lowBits_eq, Binary.ofWord_signExtend_of_le _ (Nat.not_lt.1 narrow)]
  case isFalse => rfl

/-- The zeros in front of a number and the bits that it takes are its numeral. -/
lemma nat_eq (n width : Nat) : Plan.nat n width = (nat n width).spelling.map .ofBits := by
  rw [Plan.nat, spelling]
  split
  case isTrue => rfl
  case isFalse fits =>
    refine congrArg Except.ok (eq_ofBits ?_ (Binary.length_ofNat _ _))
    have numeral := Binary.ofNat_of_lt (k := width - Binary.width n) (Binary.lt_two_pow_width n)
    rw [Nat.sub_add_cancel (Nat.not_lt.1 fits)] at numeral
    rw [numeral, Binary.map_testBit]

/-- An integer in range is planned as the natural number that has its numeral. -/
lemma int_eq (i : Int) (width : Nat) : Plan.int i width = (int i width).spelling.map .ofBits := by
  rw [Plan.int, spelling]
  split
  case isTrue fits =>
    obtain ⟨lt, numeral⟩ := ofInt_eq_ofNat (fitsInt_iff.1 fits)
    rw [nat_eq, spelling, if_neg (Nat.not_lt.2 (Binary.width_le lt)), numeral]
  case isFalse => rfl

/-- An amount of coins is planned as it is spelled. -/
lemma coins_eq (amount : BitVec 128) : Plan.coins amount = (coins amount).spelling.map .ofBits := by
  rw [Plan.coins, spelling]
  split
  case isTrue => rfl
  case isFalse =>
    refine congrArg Except.ok (eq_ofBits rfl ?_)
    rw [List.length_append, Binary.length_ofNat, Binary.length_ofNat]

/-- Every write plans its spelling, although each one makes its bits in its own way. -/
theorem plan_eq (w : Write) : w.plan = w.spelling.map .ofBits := by
  cases w with
  | bit value => rfl
  | repeated value count => exact congrArg Except.ok (eq_ofBits rfl List.length_replicate)
  | bits source count => exact range_eq source count
  | all other => rfl
  | bytes value => exact range_eq value _
  | text value => exact range_eq _ _
  | word value width => exact word_eq value width
  | wide value width => exact wide_eq value width
  | signedWord value width => exact signedWord_eq value width
  | nat n width => exact nat_eq n width
  | int i width => exact int_eq i width
  | coins amount => exact coins_eq amount
  | address value =>
    cases value with
    | none => rfl
    | some a => rfl

end Plans

/-- A write does what it plans. -/
lemma run_eq_follow (w : Write) (b : Bits) : w.run b = b.follow w.plan := by
  cases w with
  | bit value => exact (follow_ofBits b [value]).symm
  | all other => exact (follow_ofBits b other.toList).symm
  | address value =>
    cases value with
    | none => exact (follow_ofBits b Address.noneBits).symm
    | some a => exact (follow_ofBits b a.bits).symm
  | repeated | bits | bytes | text | word | wide | signedWord | nat | int | coins => rfl

/-- A write appends its spelling. -/
theorem run_eq (w : Write) (b : Bits) : w.run b = w.spelling >>= b.append := by
  rw [run_eq_follow, plan_eq]
  cases w.spelling with
  | error => rfl
  | ok xs => exact follow_ofBits b xs

/-- The bits that denote the value of a write, the most significant one first. Signed values are
denoted in two's complement, and an amount of coins behind the least number of bytes that it takes.
An address is a tag of two bits, no anycast prefix, the workchain and the bytes of the account, and
the absent address is another tag. -/
def Denotes : Write → List Bool → Prop
  | bit value, xs => xs = [value]
  | repeated value count, xs => xs = List.replicate count value
  | bits source count, xs => count ≤ 8 * source.length ∧ xs = (Octets.unpack source).take count
  | all other, xs => xs = other.toList
  | bytes value, xs => xs = Octets.unpack value
  | text value, xs => xs = Octets.unpack (Text.utf8 value)
  | word value width, xs => xs.length = width ∧ Binary.toNat xs = value.toNat
  | wide value width, xs => xs.length = width ∧ Binary.toNat xs = value.toNat
  | signedWord value width, xs => xs.length = width ∧ Binary.toInt xs = value.toInt
  | nat n width, xs => xs.length = width ∧ Binary.toNat xs = n
  | int i width, xs => xs.length = width ∧ Binary.toInt xs = i
  | coins amount, xs => ∃ size ys, xs = Binary.ofNat 4 size ++ ys ∧ size < 2 ^ 4 ∧
    ys.length = 8 * size ∧ Binary.toNat ys = amount.toNat ∧
    ∀ size', amount.toNat < 2 ^ (8 * size') → size ≤ size'
  | address none, xs => xs = [false, false]
  | address (some a), xs => ∃ workchain, xs = [true, false] ++ [false] ++ workchain ++
    Octets.unpack a.account.bytes ∧ workchain.length = 8 ∧
    Binary.toInt workchain = a.workchain.toInt

/-- The first bits of some bytes are spelled if they are there. -/
lemma frontOf_eq_ok {source : List UInt8} {count : Nat} {xs : List Bool} :
    frontOf source count = .ok xs ↔
      count ≤ 8 * source.length ∧ xs = (Octets.unpack source).take count := by
  rw [frontOf, Outcome.check_eq_ok, Except.ok.injEq, eq_comm]

/-- Whole bytes are spelled by all their bits. -/
lemma frontOf_bytes {source : List UInt8} {xs : List Bool} :
    frontOf source (8 * source.length) = .ok xs ↔ xs = Octets.unpack source := by
  rw [frontOf, if_pos (Nat.le_refl _), ← Octets.length_unpack, List.take_length, Except.ok.injEq]
  exact eq_comm

/-- Numerals of a width are those of the numbers below its power of two. -/
lemma eq_ofNat_iff {width n : Nat} {xs : List Bool} :
    n < 2 ^ width ∧ xs = Binary.ofNat width n ↔ xs.length = width ∧ Binary.toNat xs = n := by
  constructor
  · intro h
    obtain ⟨lt, rfl⟩ := h
    exact ⟨Binary.length_ofNat _ _, by rw [Binary.toNat_ofNat, Nat.mod_eq_of_lt lt]⟩
  · intro h
    obtain ⟨rfl, rfl⟩ := h
    exact ⟨Binary.toNat_lt xs, (Binary.ofNat_toNat xs).symm⟩

/-- Numerals in two's complement of a width are those of the integers in range. -/
lemma eq_ofInt_iff {width : Nat} {i : Int} {xs : List Bool} :
    Binary.InRange i width ∧ xs = Binary.ofInt width i ↔
      xs.length = width ∧ Binary.toInt xs = i := by
  constructor
  · intro h
    obtain ⟨range, rfl⟩ := h
    exact ⟨Binary.length_ofInt _ _, Binary.toInt_ofInt range⟩
  · intro h
    obtain ⟨rfl, rfl⟩ := h
    exact ⟨Binary.inRange_toInt xs, (Binary.ofInt_toInt xs).symm⟩

/-- Nothing of a word is cut off exactly if its number is below the power of two of the width. -/
lemma fitsWord_iff {w : Nat} (value : BitVec w) (width : Nat) :
    ¬ (width < w ∧ value >>> width ≠ 0) ↔ value.toNat < 2 ^ width := by
  have shifted : value >>> width = 0 ↔ value.toNat < 2 ^ width := by
    rw [← BitVec.toNat_inj, BitVec.toNat_ushiftRight, Nat.shiftRight_eq_div_pow]
    exact Nat.div_eq_zero_iff_lt (Nat.two_pow_pos _)
  rw [← shifted, not_and_not_right]
  constructor
  · intro h
    rcases Nat.lt_or_ge width w with narrow | wide
    · exact h narrow
    · rw [shifted]
      exact Nat.lt_of_lt_of_le value.isLt (Nat.pow_le_pow_right (by decide) wide)
  · intro zero _
    exact zero

/-- An amount is spelled behind the number of its bytes, which are the least that hold it. -/
lemma coins_iff {n : Nat} {xs : List Bool} :
    ¬ coinsWidth < 8 * Binary.octetsFor (Binary.width n) ∧
        xs = Binary.ofNat 4 (Binary.octetsFor (Binary.width n)) ++
          Binary.ofNat (8 * Binary.octetsFor (Binary.width n)) n ↔
      ∃ size ys, xs = Binary.ofNat 4 size ++ ys ∧ size < 2 ^ 4 ∧ ys.length = 8 * size ∧
        Binary.toNat ys = n ∧ ∀ size', n < 2 ^ (8 * size') → size ≤ size' := by
  rw [coinsWidth]
  constructor
  · intro h
    obtain ⟨few, rfl⟩ := h
    have lt := Binary.octetsFor_width_le_iff.1 (Nat.le_refl (Binary.octetsFor (Binary.width n)))
    obtain ⟨len, value⟩ := eq_ofNat_iff.1 ⟨lt, rfl⟩
    exact ⟨_, _, rfl, by omega, len, value, fun _ => Binary.octetsFor_width_le_iff.2⟩
  · intro h
    obtain ⟨size, ys, rfl, small, len, value, least⟩ := h
    obtain ⟨lt, rfl⟩ := eq_ofNat_iff.2 ⟨len, value⟩
    have le := least _ (Binary.octetsFor_width_le_iff.1 (Nat.le_refl _))
    obtain rfl := Nat.le_antisymm le (Binary.octetsFor_width_le_iff.2 lt)
    exact ⟨by omega, rfl⟩

/-- A word is spelled by the numeral that denotes its number. -/
lemma numeralOf_eq_ok {w width : Nat} {value : BitVec w} {xs : List Bool} :
    numeralOf value width = .ok xs ↔ xs.length = width ∧ Binary.toNat xs = value.toNat := by
  rw [numeralOf, Outcome.guard_eq_ok, fitsWord_iff, ← eq_ofNat_iff, Binary.ofWord_setWidth,
    Except.ok.injEq, eq_comm (b := xs)]

/-- An address is spelled by its tag, its workchain and its account. -/
lemma address_iff {a : Address} {xs : List Bool} :
    xs = a.bits ↔ ∃ workchain, xs = [true, false] ++ [false] ++ workchain ++
      Octets.unpack a.account.bytes ∧ workchain.length = 8 ∧
      Binary.toInt workchain = a.workchain.toInt := by
  have number : Binary.toInt (Binary.ofWord a.workchain.toBitVec) = a.workchain.toInt :=
    Binary.toInt_ofWord _
  constructor
  · intro e
    exact ⟨_, e, Binary.length_ofWord _, number⟩
  · intro h
    obtain ⟨workchain, rfl, len, same⟩ := h
    -- eight bits are those of the word that they denote in two's complement
    have bits := Binary.ofInt_toInt workchain
    have word := Binary.ofInt_toInt (Binary.ofWord a.workchain.toBitVec)
    rw [len, same] at bits
    rw [Binary.length_ofWord, number, bits] at word
    rw [word]
    rfl

/-- The spelling of a write is what denotes its value. -/
theorem spelling_eq_ok {w : Write} {xs : List Bool} : w.spelling = .ok xs ↔ w.Denotes xs := by
  have same {ys : List Bool} : (Except.ok ys : Except Error (List Bool)) = .ok xs ↔ xs = ys := by
    rw [Except.ok.injEq, eq_comm]
  cases w with
  | bit value => exact same
  | repeated value count => exact same
  | bits source count => exact frontOf_eq_ok
  | all other => exact same
  | bytes value => exact frontOf_bytes
  | text value => exact frontOf_bytes
  | word value width => exact numeralOf_eq_ok
  | wide value width => exact numeralOf_eq_ok
  | signedWord value width =>
    rw [spelling, Denotes, Outcome.check_eq_ok, fitsSigned_iff, ← eq_ofInt_iff, same]
    rfl
  | nat n width =>
    rw [spelling, Denotes, Outcome.guard_eq_ok, Nat.not_lt, Binary.width_le_iff, ← eq_ofNat_iff,
      same]
  | int i width =>
    rw [spelling, Denotes, Outcome.check_eq_ok, fitsInt_iff, ← eq_ofInt_iff, same]
  | coins amount =>
    rw [spelling, Outcome.guard_eq_ok, same]
    exact coins_iff
  | address value =>
    cases value with
    | none => exact same
    | some a => exact same.trans address_iff

/-- Bits are appended behind those that are there. -/
lemma append_eq_ok {b b' : Bits} {xs : List Bool} :
    b.append xs = .ok b' ↔ b'.toList = b.toList ++ xs := by
  rw [append]
  split
  case isTrue room => rw [Except.ok.injEq, Bits.ext_iff, eq_comm]
  case isFalse full =>
    apply iff_of_false
    · intro h
      cases h
    · intro e
      have le := b'.length_le
      rw [e, List.length_append] at le
      exact full (Nat.le_sub_of_add_le' le)

/-- A write that succeeds has appended what denotes its value. -/
theorem run_eq_ok {w : Write} {b b' : Bits} :
    w.run b = .ok b' ↔ ∃ xs, w.Denotes xs ∧ b'.toList = b.toList ++ xs := by
  simp only [run_eq, Outcome.bind_eq_ok, spelling_eq_ok, append_eq_ok]

end Write

end CellBag.Bits
