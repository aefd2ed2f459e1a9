import CharTable.Packed.Document
import CharTable.Proofs.Json.Numbers

/-!
The documents that denote a packed table, given as a grammar: an object in which the mask and the
flags stand once each, among members of any other name, or a list of the two. The list of flags is
read as the grammar has it.
-/
namespace CharTable.Packed.Document
open Json Ascii Grammar
open Json.Text (quote)

def ByteLiteral (text : List UInt8) (b : UInt8) : Prop := Natural text b.toNat

def Cell (text : List UInt8) (b : UInt8) : Prop := Padded (ByteLiteral · b) text

def FlagList (text : List UInt8) (flags : Vector UInt8 256) : Prop :=
  ∃ cells, List.Forall₂ Cell cells flags.toList ∧ text = code '[' :: (separated cells ++ [code ']'])

structure Member where
  key : String
  value : List UInt8

def Entry (text : List UInt8) (m : Member) : Prop := ∃ before key gap lead trail, Blanks before ∧
  Spells key (Utf8.encode m.key) ∧ Blanks gap ∧ Blanks lead ∧ Blanks trail ∧
    text = before ++ quote :: (key ++ quote :: (gap ++ code ':' :: (lead ++ (m.value ++ trail))))

def valuesAt (key : String) (members : List Member) : List (List UInt8) :=
  (members.filter fun m => m.key = key).map Member.value

/-- Mask and flags occur once each; of the other members only the form of the value is asked. -/
structure Holds (members : List Member) (p : Packed) : Prop where
  mask : ∃ text, valuesAt "class_mask" members = [text] ∧ ByteLiteral text p.mask
  flags : ∃ text, valuesAt "flags" members = [text] ∧ FlagList text p.flags
  others : ∀ m ∈ members, m.key ≠ "class_mask" → m.key ≠ "flags" → Value m.value

def ObjectForm (p : Packed) (text : List UInt8) : Prop := ∃ members texts,
  List.Forall₂ Entry texts members ∧ Holds members p ∧
    text = code '\x7b' :: (separated texts ++ [code '\x7d'])

def PairForm (p : Packed) (text : List UInt8) : Prop := ∃ mask flags, Cell mask p.mask ∧
  Padded (FlagList · p.flags) flags ∧ text = code '[' :: (separated [mask, flags] ++ [code ']'])

def Describes (text : List UInt8) (p : Packed) : Prop :=
  Padded (fun inner => ObjectForm p inner ∨ PairForm p inner) text

theorem Entry.indent {m : Member} {gap text : List UInt8} (blank : Blanks gap)
    (written : Entry text m) : Entry (gap ++ text) m := by
  obtain ⟨before, key, between, lead, trail, blankBefore, rest⟩ := written
  exact ⟨gap ++ before, key, between, lead, trail, blank.append blankBefore, by simpa using rest⟩

theorem readCells_succ {index n : Nat} {bytes rest : List UInt8}
    {cells : { l : List UInt8 // l.length = n + 1 }}
    (ok : readCells index (n + 1) bytes = .ok (cells, rest)) :
    ∃ b found after more, nextElement (index = 0) bytes = .ok (.found found) ∧
      readByte found = .ok (b, after) ∧ readCells (index + 1) n after = .ok (more, rest) ∧
      cells.val = b :: more.val := by
  unfold readCells at ok
  obtain ⟨item, next, ok⟩ := bind_eq_ok.mp ok
  split at ok
  · cases ok
  obtain ⟨⟨b, after⟩, byte, ok⟩ := bind_eq_ok.mp ok
  obtain ⟨⟨more, last⟩, others, ok⟩ := bind_eq_ok.mp ok
  cases ok
  exact ⟨b, _, after, more, next, byte, others, rfl⟩

/-- The elements from some index on, up to the closing bracket. -/
theorem cells_of_readCells {index n : Nat} {bytes gap last : List UInt8}
    {cells : { l : List UInt8 // l.length = n }} (blank : Blanks gap)
    (ok : readCells index n bytes = .ok (cells, gap ++ code ']' :: last)) :
    ∃ before texts, Blanks before ∧ List.Forall₂ Cell texts cells.val ∧
      bytes = before ++ (joined (index = 0) texts ++ code ']' :: last) := by
  induction n generalizing index bytes with
  | zero =>
    cases ok
    exact ⟨gap, [], blank, .nil, by simp⟩
  | succ n ih =>
    obtain ⟨b, found, after, more, next, byte, others, same⟩ := readCells_succ ok
    obtain ⟨before, lead, blankBefore, blankLead, rfl⟩ := nextElement_found next
    obtain ⟨start, text, blankStart, natural, rfl⟩ := natural_of_readByte byte
    -- The blanks that the rest starts with stand behind this element.
    obtain ⟨trail, texts, blankTrail, each, rfl⟩ := ih others
    have cell : Cell (lead ++ start ++ text ++ trail) b :=
      ⟨lead ++ start, text, trail, blankLead.append blankStart, natural, blankTrail, rfl⟩
    refine ⟨before, (lead ++ start ++ text ++ trail) :: texts, blankBefore, ?_, by simp⟩
    rw [same]
    exact .cons cell each

theorem readCells_of_cells {index n : Nat} {texts : List (List UInt8)}
    {cells : { l : List UInt8 // l.length = n }} (each : List.Forall₂ Cell texts cells.val)
    {before : List UInt8} (blank : Blanks before) (last : List UInt8) :
    ∃ gap, Blanks gap ∧
      readCells index n (before ++ (joined (index = 0) texts ++ code ']' :: last)) =
          .ok (cells, gap ++ code ']' :: last) := by
  induction n generalizing index texts before with
  | zero =>
    obtain ⟨_, size⟩ := cells
    cases List.length_eq_zero_iff.mp size
    cases each
    exact ⟨before, blank, by simp [readCells]⟩
  | succ n ih =>
    obtain ⟨values, size⟩ := cells
    cases each with
    | nil => cases size
    | @cons cell b texts values padded each =>
      obtain ⟨lead, text, trail, blankLead, natural, blankTrail, rfl⟩ := padded
      obtain ⟨d, ds, front, numeric⟩ := natural_front natural
      obtain ⟨gap, blankGap, others⟩ :=
        @ih (index + 1) texts ⟨values, Nat.succ.inj size⟩ each trail blankTrail
      have ended : Ended (trail ++ (joined false texts ++ code ']' :: last)) :=
        ended_joined blankTrail texts (by decide) last
      have byte := readByte_of_natural blanks_nil natural ended
      have next :=
        nextElement_of_front numeric.unblank (numeric.ne (by decide)) blank blankLead (index = 0)
          (ds ++ (trail ++ (joined false texts ++ code ']' :: last)))
      rw [← List.cons_append, ← front] at next
      have split :
          before ++ (joined (index = 0) ((lead ++ text ++ trail) :: texts) ++ code ']' :: last) =
          before ++
          (comma (index = 0) ++
          (lead ++ (text ++ (trail ++ (joined false texts ++ code ']' :: last))))) := by
        simp
      refine ⟨gap, blankGap, ?_⟩
      rw [split, readCells, next]
      exact bind_eq_ok.mpr ⟨_, rfl, bind_eq_ok.mpr ⟨_, byte, bind_eq_ok.mpr ⟨_, others, rfl⟩⟩⟩

theorem flagList_of_readFlags {bytes rest : List UInt8} {flags : Vector UInt8 256}
    (ok : readFlags bytes = .ok (flags, rest)) :
    ∃ gap text, Blanks gap ∧ FlagList text flags ∧ bytes = gap ++ (text ++ rest) := by
  unfold readFlags at ok
  split at ok
  · cases ok
  rename_i found
  obtain ⟨_, gap, blank, rfl⟩ := dropBlanks_eq_cons found
  split at ok
  · rename_i opened
    obtain ⟨⟨⟨cells, size⟩, after⟩, read, ok⟩ := bind_eq_ok.mp ok
    obtain ⟨last, closed, ok⟩ := bind_eq_ok.mp ok
    cases ok
    obtain ⟨trail, blankTrail, rfl⟩ := readListEnd_eq_ok_iff.mp closed
    obtain ⟨before, texts, blankBefore, each, rfl⟩ := cells_of_readCells blankTrail read
    have nonempty : cells ≠ [] := List.ne_nil_of_length_eq_add_one size
    obtain ⟨others, each, split⟩ :=
      exists_separated (fun _ _ _ => Padded.indent) each nonempty blankBefore
    refine ⟨gap, _, blank, ⟨others, by simpa using each, rfl⟩, ?_⟩
    rw [opened, ← split]
    simp
  · cases ok

theorem readFlags_of_flagList {gap text : List UInt8} {flags : Vector UInt8 256}
    (blank : Blanks gap) (listed : FlagList text flags) (rest : List UInt8) :
    readFlags (gap ++ (text ++ rest)) = .ok (flags, rest) := by
  obtain ⟨texts, each, rfl⟩ := listed
  obtain ⟨trail, blankTrail, read⟩ :=
    @readCells_of_cells 0 256 texts ⟨flags.toList, flags.length_toList⟩ each [] blanks_nil rest
  rw [decide_eq_true rfl, ← separated_eq_joined, List.nil_append] at read
  have closed : readListEnd (trail ++ code ']' :: rest) = .ok rest :=
    readListEnd_eq_ok_iff.mpr ⟨trail, blankTrail, rfl⟩
  rw [List.cons_append, List.append_assoc, List.singleton_append, readFlags,
    dropBlanks_mark blank (by decide)]
  dsimp only
  rw [if_pos rfl, read]
  refine bind_eq_ok.mpr ⟨_, rfl, bind_eq_ok.mpr ⟨_, closed, ?_⟩⟩
  simp [pure, Except.pure, Vector.toList]

end CharTable.Packed.Document
