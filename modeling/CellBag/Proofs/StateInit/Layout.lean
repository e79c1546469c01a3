import CellBag.Proofs.Builder.Writes
import CellBag.Proofs.Stream.Spelling
import Mathlib

/-!
# Layout of initial states

The bits and references of an initial state, over an optional root that stands for its libraries
(`StateInit.LaidOut`). A state is stored as a cell exactly when the cell is laid out for it over the
root of its libraries (`StateInit.toCell_eq_ok`), and is read from a cell exactly when the cell is
laid out for it over a root that its libraries are read from (`StateInit.ofCell_eq_ok`).
-/

namespace CellBag

namespace StateInit

/-- The bits of a split depth. -/
def depthBits (depth : Option UInt8) : List Bool :=
  [depth.isSome] ++ (depth.map fun d => Binary.ofNat 5 d.toNat).getD []

/-- The bits of the flags of a special contract. -/
def specialBits (special : Option TickTock) : List Bool :=
  [special.isSome] ++ (special.map fun flags => [flags.tick] ++ [flags.tock]).getD []

/-- The bits of an initial state: the split depth, the flags, and whether there are code, data and
libraries. -/
def layout (s : StateInit) (root : Option Cell) : List Bool :=
  depthBits s.splitDepth ++ (specialBits s.special ++
    ([s.code.isSome] ++ ([s.data.isSome] ++ [root.isSome])))

/-- The references of an initial state: code, data and the root of the libraries. -/
def refsOver (s : StateInit) (root : Option Cell) : List Cell :=
  s.code.toList ++ (s.data.toList ++ root.toList)

/-- A cell holds an initial state over the root of its libraries. -/
structure LaidOut (s : StateInit) (root : Option Cell) (c : Cell) : Prop where
  bits_eq : c.bits.toList = s.layout root
  refs_eq : c.refs = s.refsOver root

/-- What holds of all references of a state holds of its code, its data and its libraries. -/
lemma forall_mem_refsOver {s : StateInit} {root : Option Cell} {P : Cell → Prop} :
    (∀ r ∈ s.refsOver root, P r) ↔
      (∀ r ∈ s.code, P r) ∧ (∀ r ∈ s.data, P r) ∧ ∀ r ∈ root, P r := by
  rw [refsOver, List.forall_mem_append, List.forall_mem_append]
  simp only [Option.mem_toList, Option.mem_def]

end StateInit

namespace Store
open StateInit Outcome
variable {s : StateInit} {root : Option Cell} {u : Unit} {b b' : Builder}

/-- Stores a split depth, unless it is too large. -/
def splitDepth : Option UInt8 → Store Unit
  | some depth => do
    if maxSplitDepth < depth.toNat then throw (.intOverflow 5)
    bit true
    nat depth.toNat 5
  | none => bit false

/-- Stores the flags of a special contract. -/
def special : Option TickTock → Store Unit
  | some flags => do
    bit true
    bit flags.tick
    bit flags.tock
  | none => bit false

/-- An initial state is stored part by part. -/
lemma stateInit_eq (s : StateInit) : stateInit s = (do
    splitDepth s.splitDepth
    special s.special
    maybeRef s.code
    maybeRef s.data
    dictionary (some s.library)) := by
  have flagged (next : Store Unit) : (match s.special with
      | some flags => do bit true; bit flags.tick; bit flags.tock; next
      | none => do bit false; next) = (do special s.special; next) := by
    cases s.special with
    | none => rfl
    | some flags => simp only [special, bind_assoc]
  rw [stateInit]
  cases s.splitDepth with
  | none => exact congrArg (bit false >>= ·) (funext fun _ => flagged _)
  | some depth =>
    dsimp only [splitDepth]
    by_cases large : maxSplitDepth < depth.toNat
    · rw [if_pos large, if_pos large]
      rfl
    · rw [if_neg large, if_neg large, bind_assoc]
      exact congrArg (bit true >>= ·)
        (funext fun _ => congrArg (nat depth.toNat 5 >>= ·) (funext fun _ => flagged _))

/-- A split depth that is stored is not too large. -/
lemma le_of_splitDepth {depth : Option UInt8} (run : splitDepth depth b = .ok u b') :
    ∀ d ∈ depth, d.toNat ≤ maxSplitDepth := by
  cases depth with
  | none => exact fun _ mem => (Option.not_mem_none _ mem).elim
  | some depth =>
    obtain ⟨small, _⟩ := action_guard_bind_eq_ok.1 run
    intro d mem
    cases mem
    exact Nat.not_lt.1 small

/-- A split depth that is not too large is written as its bits. -/
lemma writes_splitDepth {depth : Option UInt8} (le : ∀ d ∈ depth, d.toNat ≤ maxSplitDepth) :
    Writes (splitDepth depth) (depthBits depth) [] := by
  cases depth with
  | none => exact writes_bit false
  | some depth =>
    have small := le depth rfl
    have lt : depth.toNat < 2 ^ 5 := Nat.lt_of_le_of_lt small (by decide)
    rw [splitDepth, if_neg (Nat.not_lt.2 small)]
    exact (writes_bit true).bind (writes_nat lt)

/-- The flags of a special contract are written as their bits. -/
lemma writes_special (special : Option TickTock) :
    Writes (Store.special special) (specialBits special) [] := by
  cases special with
  | none => exact writes_bit false
  | some flags => exact (writes_bit true).bind ((writes_bit flags.tick).bind (writes_bit flags.tock))

/-- A dictionary is written as its optional root. -/
lemma writes_dictionary {d : Dictionary} (stored : d.toRoot = .ok root) :
    Writes (dictionary (some d)) [root.isSome] root.toList := by
  rw [dictionary, stored]
  exact writes_maybeRef root

/-- A state is written as its bits and references. -/
lemma writes_stateInit (le : ∀ d ∈ s.splitDepth, d.toNat ≤ maxSplitDepth)
    (stored : s.library.toRoot = .ok root) :
    Writes (stateInit s) (s.layout root) (s.refsOver root) := by
  rw [stateInit_eq]
  exact (writes_splitDepth le).bind ((writes_special s.special).bind
    ((writes_maybeRef s.code).bind ((writes_maybeRef s.data).bind (writes_dictionary stored))))

end Store

namespace Load
open StateInit Outcome Slice
variable {sl t : Slice} {s : StateInit}

/-- Loads a split depth. -/
def splitDepth : Load UInt8 := do
  let depth ← word 5
  return ⟨depth.setWidth 8⟩

/-- A split depth is spelled by five bits. -/
lemma decodes_splitDepth :
    Decodes splitDepth (fun d => d.toNat < 2 ^ 5) (fun d => Binary.ofNat 5 d.toNat)
      (fun _ => []) := by
  intro sl d t le
  have narrow (x : BitVec 64) (lt : x.toNat < 2 ^ 5) :
      (⟨x.setWidth 8⟩ : UInt8).toNat = x.toNat := by
    show (x.setWidth 8).toNat = x.toNat
    rw [BitVec.toNat_setWidth, Nat.mod_eq_of_lt (Nat.lt_trans lt (by decide))]
  have word (x : BitVec 64) := decodes_word (by decide : 5 ≤ 64) sl x t le
  rw [splitDepth, action_bind_eq_ok]
  constructor
  · intro run
    obtain ⟨x, _, first, last⟩ := run
    cases last
    obtain ⟨lt, spans⟩ := (word x).1 first
    dsimp only
    rw [narrow x lt]
    exact ⟨lt, spans⟩
  · intro spelled
    obtain ⟨lt, spans⟩ := spelled
    have same : (BitVec.ofNat 64 d.toNat).toNat = d.toNat :=
      Nat.mod_eq_of_lt (Nat.lt_trans d.toNat_lt (by decide))
    refine ⟨BitVec.ofNat 64 d.toNat, t, (word _).2 ?_, ?_⟩
    · dsimp only
      rw [same]
      exact ⟨lt, spans⟩
    · apply action_pure_eq_ok.2
      refine ⟨UInt8.toNat_inj.1 ?_, rfl⟩
      rw [narrow _ (same.symm ▸ lt), same]

/-- The flags of a special contract are spelled by two bits. -/
lemma decodes_tickTock :
    Decodes tickTock (fun _ => True) (fun flags => [flags.tick] ++ [flags.tock]) (fun _ => []) := by
  intro sl flags t _
  simp only [tickTock, action_bind_eq_ok, bit_eq_ok, action_pure_eq_ok]
  rw [true_and, spans_nil, between_append]
  constructor
  · intro run
    obtain ⟨tick, middle, first, tock, _, second, rfl, rfl⟩ := run
    exact ⟨middle, first, second⟩
  · intro spelled
    obtain ⟨middle, first, second⟩ := spelled
    exact ⟨flags.tick, middle, first, flags.tock, t, second, rfl, rfl⟩

/-- An initial state is loaded part by part. -/
lemma stateInit_eq : stateInit = (do
    let splitDepth ← optional splitDepth
    let special ← optional tickTock
    let code ← maybeRef
    let data ← maybeRef
    let library ← dictionary libraryKeyWidth Dictionary.defaultLimit
    return ⟨splitDepth, special, code, data, library⟩) := by
  have mapped : optional splitDepth = (do
      let depth ← optional (word 5)
      return depth.map fun depth => ⟨depth.setWidth 8⟩) := by
    rw [optional, optional, bind_assoc]
    apply congrArg (bit >>= ·)
    funext present
    cases present with
    | false => rfl
    | true => simp only [splitDepth, if_true, bind_assoc, pure_bind, Option.map_some]
  rw [mapped, stateInit]
  simp only [bind_assoc, pure_bind]

end Load

namespace StateInit
open Outcome Slice
variable {s : StateInit} {c : Cell}

/-- A state is stored as the cells that are laid out for it over the root of its libraries, unless its
split depth is too large. -/
theorem toCell_eq_ok :
    s.toCell = .ok c ↔ (∀ d ∈ s.splitDepth, d.toNat ≤ maxSplitDepth) ∧
      ∃ root, s.library.toRoot = .ok root ∧ s.LaidOut root c ∧ c.isExotic = false ∧
        c.WellFormed := by
  constructor
  · intro made
    obtain ⟨_, _, run, _⟩ := Store.toCell_eq_ok_iff_finish.1 made
    rw [Store.stateInit_eq] at run
    obtain ⟨_, _, first, run⟩ := action_bind_eq_ok.1 run
    obtain ⟨_, _, _, run⟩ := action_bind_eq_ok.1 run
    obtain ⟨_, _, _, run⟩ := action_bind_eq_ok.1 run
    obtain ⟨_, _, _, run⟩ := action_bind_eq_ok.1 run
    obtain ⟨root, _, last, _⟩ := action_bind_eq_ok.1 run
    obtain ⟨stored, _⟩ := action_ofExcept_eq_ok.1 last
    have le := Store.le_of_splitDepth first
    obtain ⟨bits, refs, cell⟩ := (Store.writes_stateInit le stored).toCell_eq_ok.1 made
    exact ⟨le, root, stored, ⟨bits, refs⟩, cell⟩
  · intro h
    obtain ⟨le, root, stored, ⟨bits, refs⟩, cell⟩ := h
    exact (Store.writes_stateInit le stored).toCell_eq_ok.2 ⟨bits, refs, cell⟩

/-- A state whose split depth is too large is not stored. -/
lemma toCell_eq_error {d : UInt8} (depth : s.splitDepth = some d) (lt : maxSplitDepth < d.toNat) :
    s.toCell = .error (.intOverflow 5) := by
  have first : Store.splitDepth (some d) Builder.empty = .error (.intOverflow 5) Builder.empty := by
    rw [Store.splitDepth, if_pos lt]
    rfl
  rw [toCell, Store.toCell, Store.stateInit_eq, depth, action_bind_of_error first]

/-- The parts of a state are read where its bits and references stand over a root that its libraries
are read from. -/
lemma load_eq_ok {sl t : Slice} (le : sl.bitPosition ≤ sl.cell.bits.length) :
    Load.stateInit sl = .ok s t ↔ (∀ d ∈ s.splitDepth, d.toNat < 2 ^ 5) ∧
      ∃ root, Dictionary.ofRoot? libraryKeyWidth Dictionary.defaultLimit root = .ok s.library ∧
        Spans sl (s.layout root) (s.refsOver root) t := by
  rw [Load.stateInit_eq]
  constructor
  · intro run
    obtain ⟨depth, s₁, run₁, run⟩ := action_bind_eq_ok.1 run
    obtain ⟨special, s₂, run₂, run⟩ := action_bind_eq_ok.1 run
    obtain ⟨code, s₃, run₃, run⟩ := action_bind_eq_ok.1 run
    obtain ⟨data, s₄, run₄, run⟩ := action_bind_eq_ok.1 run
    obtain ⟨library, _, run₅, last⟩ := action_bind_eq_ok.1 run
    cases last
    obtain ⟨lt, part₁⟩ := (Load.decodes_splitDepth.optional_bits sl depth s₁ le).1 run₁
    obtain ⟨_, part₂⟩ := (Load.decodes_tickTock.optional_bits s₁ special s₂ part₁.le_end).1 run₂
    obtain ⟨_, part₃⟩ := (Load.decodes_maybeRef s₂ code s₃ part₂.le_end).1 run₃
    obtain ⟨_, part₄⟩ := (Load.decodes_maybeRef s₃ data s₄ part₃.le_end).1 run₄
    obtain ⟨root, read, part₅⟩ := (Load.dictionary_eq_ok part₄.le_end).1 run₅
    refine ⟨lt, root, read, ?_⟩
    have behind := spans_append.2 ⟨s₃, part₃, spans_append.2 ⟨s₄, part₄, part₅⟩⟩
    have all := spans_append.2 ⟨s₁, part₁, spans_append.2 ⟨s₂, part₂, behind⟩⟩
    exact all
  · intro spelled
    obtain ⟨lt, root, read, spans⟩ := spelled
    have parts : Spans sl (s.layout root) ([] ++ ([] ++ s.refsOver root)) t := spans
    obtain ⟨s₁, part₁, behind⟩ := spans_append.1 parts
    obtain ⟨s₂, part₂, behind⟩ := spans_append.1 behind
    obtain ⟨s₃, part₃, behind⟩ := spans_append.1 behind
    obtain ⟨s₄, part₄, part₅⟩ := spans_append.1 behind
    have run₁ := (Load.decodes_splitDepth.optional_bits sl _ s₁ le).2 ⟨lt, part₁⟩
    have run₂ := (Load.decodes_tickTock.optional_bits s₁ _ s₂ part₁.le_end).2
      ⟨fun _ _ => trivial, part₂⟩
    have run₃ := (Load.decodes_maybeRef s₂ _ s₃ part₂.le_end).2 ⟨trivial, part₃⟩
    have run₄ := (Load.decodes_maybeRef s₃ _ s₄ part₃.le_end).2 ⟨trivial, part₄⟩
    have run₅ := (Load.dictionary_eq_ok part₄.le_end).2 ⟨root, read, part₅⟩
    rw [action_bind_of_ok run₁, action_bind_of_ok run₂, action_bind_of_ok run₃,
      action_bind_of_ok run₄, action_bind_of_ok run₅]
    rfl

/-- A state is read from the cells that are laid out for it over a root that its libraries are read
from. -/
theorem ofCell_eq_ok :
    ofCell c = .ok s ↔ (∀ d ∈ s.splitDepth, d.toNat < 2 ^ 5) ∧
      ∃ root, Dictionary.ofRoot? libraryKeyWidth Dictionary.defaultLimit root = .ok s.library ∧
        s.LaidOut root c := by
  have start : (Slice.ofCell c).bitPosition ≤ c.bits.length := Nat.zero_le _
  rw [ofCell, Load.fromCell_eq_ok]
  constructor
  · intro run
    obtain ⟨t, run⟩ := run
    obtain ⟨_, _, loaded, rest⟩ := action_bind_eq_ok.1 run
    obtain ⟨_, _, ended, last⟩ := action_bind_eq_ok.1 rest
    cases last
    obtain ⟨empty, rfl⟩ := Load.finish_eq_ok.1 ended
    obtain ⟨lt, root, read, spans⟩ := (load_eq_ok start).1 loaded
    obtain ⟨bits, refs⟩ := spans.eq_of_isEmpty empty
    exact ⟨lt, root, read, bits, refs⟩
  · intro h
    obtain ⟨lt, root, read, bits, refs⟩ := h
    have spans := spans_atEnd c
    rw [bits, refs] at spans
    have loaded := (load_eq_ok start).2 ⟨lt, root, read, spans⟩
    have ended := Load.finish_eq_ok (u := ()).2 ⟨isEmpty_atEnd (Slice.ofCell c), rfl⟩
    refine ⟨(Slice.ofCell c).atEnd, ?_⟩
    rw [action_bind_of_ok loaded, action_bind_of_ok ended]
    rfl

/-- The address of a contract is the hash of the cell that its state is stored as. -/
lemma address_eq_ok {workchain : Int8} {a : Address} :
    s.address workchain = .ok a ↔ ∃ c, s.toCell = .ok c ∧ a = { workchain, account := c.hash } := by
  rw [address, bind_eq_ok]
  exact exists_congr fun c => and_congr_right fun _ => pure_eq_ok.trans eq_comm

end StateInit

end CellBag
