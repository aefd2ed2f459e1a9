import CharTable.Proofs.Document.Members

/-!
Documents are read as the grammar has them: the reader accepts the texts that denote a packed table
and no others, and gives the table that they denote.
-/
namespace CharTable.Packed.Document
open Json Ascii Grammar

theorem objectForm_of_readObject {bytes rest : List UInt8} {p : Packed}
    (ok : readObject bytes = .ok (p, rest)) :
    ∃ text, ObjectForm p text ∧ code '\x7b' :: bytes = text ++ rest := by
  obtain ⟨⟨f, last⟩, read, checked⟩ := bind_eq_ok.mp ok
  obtain ⟨gap, members, texts, blank, each, all, rfl⟩ := members_of_readMembers read
  dsimp only at checked
  split at checked
  · rename_i complete
    cases checked
    cases packed_eq_ok_iff.mp complete
    have holds := fillsAll_empty_iff.mp all
    obtain ⟨others, each, split⟩ :=
      exists_separated (fun _ _ _ => Entry.indent) each holds.nonempty blank
    refine ⟨_, ⟨members, others, each, holds, rfl⟩, ?_⟩
    rw [← split]
    simp
  · cases checked

theorem readObject_of_objectForm {text : List UInt8} {p : Packed} (form : ObjectForm p text)
    (rest : List UInt8) :
    ∃ tail, text = code '\x7b' :: tail ∧ readObject (tail ++ rest) = .ok (p, rest) := by
  obtain ⟨members, texts, each, holds, rfl⟩ := form
  refine ⟨_, rfl, ?_⟩
  have read := readMembers_of_members (fillsAll_empty_iff.mpr holds) each blanks_nil true rest
  rw [← separated_eq_joined, List.nil_append] at read
  rw [List.append_assoc]
  exact bind_eq_ok.mpr ⟨_, read, rfl⟩

theorem pairForm_of_readPair {bytes rest : List UInt8} {p : Packed}
    (ok : readPair bytes = .ok (p, rest)) :
    ∃ text, PairForm p text ∧ code '[' :: bytes = text ++ rest := by
  unfold readPair at ok
  obtain ⟨item, first, ok⟩ := bind_eq_ok.mp ok
  split at ok
  · cases ok
  obtain ⟨⟨mask, afterMask⟩, byte, ok⟩ := bind_eq_ok.mp ok
  obtain ⟨item, second, ok⟩ := bind_eq_ok.mp ok
  split at ok
  · cases ok
  obtain ⟨⟨flags, afterFlags⟩, list, ok⟩ := bind_eq_ok.mp ok
  obtain ⟨last, closed, done⟩ := bind_eq_ok.mp ok
  cases done
  obtain ⟨before, lead, blankBefore, blankLead, rfl⟩ := nextElement_found first
  obtain ⟨start, literal, blankStart, natural, rfl⟩ := natural_of_readByte byte
  obtain ⟨trail, next, blankTrail, blankNext, rfl⟩ := nextElement_found second
  obtain ⟨gap, listed, blankGap, form, rfl⟩ := flagList_of_readFlags list
  obtain ⟨after, blankAfter, rfl⟩ := readListEnd_eq_ok_iff.mp closed
  have maskCell : Cell (before ++ lead ++ start ++ literal ++ trail) mask :=
    ⟨before ++ lead ++ start, literal, trail, (blankBefore.append blankLead).append blankStart,
      natural, blankTrail, rfl⟩
  have flagsPart : Padded (FlagList · flags) (next ++ gap ++ listed ++ after) :=
    ⟨next ++ gap, listed, after, blankNext.append blankGap, form, blankAfter, rfl⟩
  exact ⟨_, ⟨_, _, maskCell, flagsPart, rfl⟩, by simp [separated_eq_joined]⟩

theorem readPair_of_pairForm {text : List UInt8} {p : Packed} (form : PairForm p text)
    (rest : List UInt8) :
    ∃ tail, text = code '[' :: tail ∧ readPair (tail ++ rest) = .ok (p, rest) := by
  obtain ⟨_, _, ⟨lead, literal, trail, blankLead, natural, blankTrail, rfl⟩,
    ⟨next, listed, after, blankNext, form, blankAfter, rfl⟩, rfl⟩ := form
  refine ⟨_, rfl, ?_⟩
  obtain ⟨d, ds, front, numeric⟩ := natural_front natural
  have closed : readListEnd (after ++ code ']' :: rest) = .ok rest :=
    readListEnd_eq_ok_iff.mpr ⟨after, blankAfter, rfl⟩
  have list := readFlags_of_flagList blanks_nil form (after ++ code ']' :: rest)
  have second :
      nextElement false
          (trail ++ (comma false ++ (next ++ (listed ++ (after ++ code ']' :: rest))))) =
        .ok (.found (listed ++ (after ++ code ']' :: rest))) := by
    obtain ⟨_, _, rfl⟩ := form
    exact nextElement_of_front (by decide) (by decide) blankTrail blankNext false _
  have ended :
      Ended (trail ++ (comma false ++ (next ++ (listed ++ (after ++ code ']' :: rest))))) :=
    ended_blanks blankTrail (ended_cons (by decide))
  have byte := readByte_of_natural blanks_nil natural ended
  have first :
      nextElement true (lead ++ (literal ++
          (trail ++ (comma false ++ (next ++ (listed ++ (after ++ code ']' :: rest))))))) =
        .ok (.found (literal ++
          (trail ++ (comma false ++ (next ++ (listed ++ (after ++ code ']' :: rest))))))) := by
    rw [front]
    exact nextElement_of_front numeric.unblank (numeric.ne (by decide)) blanks_nil blankLead true _
  have split : separated [lead ++ literal ++ trail, next ++ listed ++ after] ++ [code ']'] ++ rest =
      lead ++ (literal ++
        (trail ++ (comma false ++ (next ++ (listed ++ (after ++ code ']' :: rest)))))) := by
    simp [separated_eq_joined]
  rw [split]
  refine bind_eq_ok.mpr ⟨_, first, bind_eq_ok.mpr ⟨_, byte, bind_eq_ok.mpr ⟨_, second, ?_⟩⟩⟩
  exact bind_eq_ok.mpr ⟨_, list, bind_eq_ok.mpr ⟨_, closed, rfl⟩⟩

theorem form_of_readTable {bytes rest : List UInt8} {p : Packed}
    (ok : readTable bytes = .ok (p, rest)) :
    ∃ gap text, Blanks gap ∧ (ObjectForm p text ∨ PairForm p text) ∧
      bytes = gap ++ (text ++ rest) := by
  unfold readTable at ok
  split at ok
  · cases ok
  rename_i found
  obtain ⟨_, gap, blank, rfl⟩ := dropBlanks_eq_cons found
  split at ok
  · rename_i opened
    obtain ⟨text, form, split⟩ := objectForm_of_readObject ok
    exact ⟨gap, text, blank, .inl form, by rw [opened, split]⟩
  split at ok
  · rename_i opened
    obtain ⟨text, form, split⟩ := pairForm_of_readPair ok
    exact ⟨gap, text, blank, .inr form, by rw [opened, split]⟩
  · cases ok

theorem readTable_of_form {gap text rest : List UInt8} {p : Packed} (blank : Blanks gap)
    (form : ObjectForm p text ∨ PairForm p text) :
    readTable (gap ++ (text ++ rest)) = .ok (p, rest) := by
  obtain object | pair := form
  · obtain ⟨tail, rfl, ok⟩ := readObject_of_objectForm object rest
    rw [List.cons_append, readTable, dropBlanks_mark blank (by decide)]
    exact (if_pos rfl).trans ok
  · obtain ⟨tail, rfl, ok⟩ := readPair_of_pairForm pair rest
    rw [List.cons_append, readTable, dropBlanks_mark blank (by decide)]
    exact (if_neg (by decide)).trans ((if_pos rfl).trans ok)

/-- Only texts that describe a table are read as one. -/
theorem describes_of_read {data : List UInt8} {p : Packed}
    (ok : read data = .ok p) : Describes data p := by
  obtain ⟨⟨q, rest⟩, table, trailing⟩ := bind_eq_ok.mp ok
  obtain ⟨gap, text, blank, form, rfl⟩ := form_of_readTable table
  dsimp only at trailing
  split at trailing
  · rename_i ended
    cases trailing
    exact ⟨gap, text, rest, blank, form, dropBlanks_eq_nil_iff.mp ended, by simp⟩
  · cases trailing

/-- Every text that describes a table is read as this table. -/
theorem read_of_describes {data : List UInt8} {p : Packed}
    (described : Describes data p) : read data = .ok p := by
  obtain ⟨gap, text, rest, blank, form, ended, rfl⟩ := described
  rw [List.append_assoc]
  refine bind_eq_ok.mpr ⟨_, readTable_of_form blank form, ?_⟩
  dsimp only
  rw [dropBlanks_eq_nil_iff.mpr ended]
  rfl

/-- The reader accepts exactly the documents that denote a packed table, and reads the table they
denote. -/
theorem read_eq_ok_iff_describes (data : List UInt8) (p : Packed) :
    read data = .ok p ↔ Describes data p :=
  ⟨describes_of_read, read_of_describes⟩

end CharTable.Packed.Document
