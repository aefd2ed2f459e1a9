import CharTable.Proofs.Document.Form
import CharTable.Proofs.Json.Values

/-!
The members of an object. Each one is read for what it leaves in the fields; all of them together
fill the fields exactly if mask and flags occur once each.
-/
namespace CharTable.Packed.Document
open Json Ascii Grammar
open Json.Text (quote)

inductive Fills : Fields → Member → Fields → Prop
  | mask {f : Fields} {text : List UInt8} {b : UInt8} (absent : f.mask = none)
      (literal : ByteLiteral text b) : Fills f ⟨"class_mask", text⟩ ⟨some b, f.flags⟩
  | flags {f : Fields} {text : List UInt8} {v : Vector UInt8 256} (absent : f.flags = none)
      (listed : FlagList text v) : Fills f ⟨"flags", text⟩ ⟨f.mask, some v⟩
  | other {f : Fields} {m : Member} (unlike : m.key ≠ "class_mask" ∧ m.key ≠ "flags")
      (form : Value m.value) : Fills f m f

theorem ofName?_eq_none_iff {key : String} :
    Field.ofName? key = none ↔ key ≠ "class_mask" ∧ key ≠ "flags" := by
  unfold Field.ofName?
  split
  · rename_i same
    simp [same, Field.name]
  · rename_i unlikeMask
    split
    · rename_i same
      simp [same, Field.name]
    · rename_i unlikeFlags
      exact iff_of_true rfl ⟨unlikeMask, unlikeFlags⟩

theorem ofName?_eq_some_iff {key : String} {field : Field} :
    Field.ofName? key = some field ↔ key = field.name := by
  unfold Field.ofName?
  split
  · rename_i mask
    cases field with
    | mask => simp [mask]
    | flags => simp [mask, Field.name]
  · rename_i unlike
    cases field with
    | mask => split <;> simp [unlike]
    | flags => split <;> simp_all

/-- The text of a member from behind its opening quote. -/
theorem member_of_readMember {f g : Fields} {bytes rest : List UInt8}
    (ok : readMember f bytes = .ok (g, rest)) :
    ∃ m key gap lead, Spells key (Utf8.encode m.key) ∧ Blanks gap ∧ Blanks lead ∧ Fills f m g ∧
      bytes = key ++ quote :: (gap ++ code ':' :: (lead ++ (m.value ++ rest))) := by
  unfold readMember readValue at ok
  obtain ⟨⟨name, afterKey⟩, first, valued⟩ := bind_eq_ok.mp ok
  obtain ⟨key, spells, rfl⟩ := Text.read_eq_ok_iff.mp first
  dsimp only at valued
  split at valued
  · rename_i unlike
    obtain ⟨afterColon, colon, next⟩ := bind_eq_ok.mp valued
    obtain ⟨last, skipped, done⟩ := bind_eq_ok.mp next
    cases done
    obtain ⟨gap, blank, rfl⟩ := readColon_eq_ok_iff.mp colon
    obtain ⟨lead, value, blankLead, form, rfl⟩ := value_of_skipValue skipped
    exact ⟨⟨name, value⟩, key, gap, lead, spells, blank, blankLead,
      .other (ofName?_eq_none_iff.mp unlike) form, rfl⟩
  · rename_i field named
    cases ofName?_eq_some_iff.mp named
    split at valued
    · cases valued
    rename_i absent
    obtain ⟨afterColon, colon, next⟩ := bind_eq_ok.mp valued
    obtain ⟨gap, blank, rfl⟩ := readColon_eq_ok_iff.mp colon
    cases field with
    | mask =>
      obtain ⟨⟨b, last⟩, byte, done⟩ := bind_eq_ok.mp next
      cases done
      obtain ⟨lead, text, blankLead, literal, rfl⟩ := natural_of_readByte byte
      exact ⟨_, key, gap, lead, spells, blank, blankLead,
        .mask (by simpa [Fields.has] using absent) literal, rfl⟩
    | flags =>
      obtain ⟨⟨v, last⟩, list, done⟩ := bind_eq_ok.mp next
      cases done
      obtain ⟨lead, text, blankLead, listed, rfl⟩ := flagList_of_readFlags list
      exact ⟨_, key, gap, lead, spells, blank, blankLead,
        .flags (by simpa [Fields.has] using absent) listed, rfl⟩

theorem readMember_of_fills {f g : Fields} {m : Member} {key gap lead rest : List UInt8}
    (spells : Spells key (Utf8.encode m.key)) (blank : Blanks gap) (blankLead : Blanks lead)
    (fills : Fills f m g) (ended : Ended rest) :
    readMember f (key ++ quote :: (gap ++ code ':' :: (lead ++ (m.value ++ rest)))) =
        .ok (g, rest) := by
  have first : Text.read (key ++ quote :: (gap ++ code ':' :: (lead ++ (m.value ++ rest)))) =
      .ok (m.key, gap ++ code ':' :: (lead ++ (m.value ++ rest))) :=
    Text.read_eq_ok_iff.mpr ⟨key, spells, rfl⟩
  refine bind_eq_ok.mpr ⟨_, first, ?_⟩
  have colon : readColon (gap ++ code ':' :: (lead ++ (m.value ++ rest))) =
    .ok (lead ++ (m.value ++ rest)) :=
    readColon_eq_ok_iff.mpr ⟨gap, blank, rfl⟩
  change readValue f m.key _ = _
  unfold readValue
  cases fills with
  | mask absent literal =>
    dsimp only
    rw [ofName?_eq_some_iff.mpr (show "class_mask" = Field.mask.name from rfl)]
    dsimp only
    rw [if_neg (by simp [Fields.has, absent])]
    exact bind_eq_ok.mpr ⟨_, colon,
      bind_eq_ok.mpr ⟨_, readByte_of_natural blankLead literal ended, rfl⟩⟩
  | flags absent listed =>
    dsimp only
    rw [ofName?_eq_some_iff.mpr (show "flags" = Field.flags.name from rfl)]
    dsimp only
    rw [if_neg (by simp [Fields.has, absent])]
    exact bind_eq_ok.mpr ⟨_, colon,
      bind_eq_ok.mpr ⟨_, readFlags_of_flagList blankLead listed rest, rfl⟩⟩
  | other unlike form =>
    rw [ofName?_eq_none_iff.mpr unlike]
    exact bind_eq_ok.mpr ⟨_, colon,
      bind_eq_ok.mpr ⟨_, skipValue_of_value blankLead form ended, rfl⟩⟩

inductive FillsAll : Fields → List Member → Fields → Prop
  | nil {f : Fields} : FillsAll f [] f
  | cons {f g h : Fields} {m : Member} {members : List Member} (here : Fills f m g)
      (rest : FillsAll g members h) : FillsAll f (m :: members) h

theorem readMembers_closed {f : Fields} {first : Bool} {bytes rest : List UInt8}
    (next : nextKey first bytes = .ok (.closed rest)) :
    readMembers f first bytes = .ok (f, rest) := by
  rw [readMembers]
  split <;> simp_all

theorem readMembers_found {f g : Fields} {first : Bool} {bytes found after : List UInt8}
    (next : nextKey first bytes = .ok (.found found))
    (member : readMember f found = .ok (g, after)) :
    readMembers f first bytes = readMembers g false after := by
  rw [readMembers]
  split <;> simp_all
  split <;> simp_all

/-- What is read is a list of members that fill the fields one after the other. -/
theorem members_of_readMembers {f g : Fields} {first : Bool} {bytes rest : List UInt8}
    (ok : readMembers f first bytes = .ok (g, rest)) : ∃ gap members texts, Blanks gap ∧
      List.Forall₂ Entry texts members ∧ FillsAll f members g ∧
        bytes = gap ++ (joined first texts ++ code '\x7d' :: rest) := by
  fun_induction readMembers f first bytes with
  | case1 => cases ok
  | case2 f first bytes after next =>
    cases ok
    obtain ⟨gap, blank, rfl⟩ := nextKey_closed_iff.mp next
    exact ⟨gap, [], [], blank, .nil, .nil, by simp⟩
  | case3 => cases ok
  | case4 f first bytes found next h after member _ _ ih =>
    obtain ⟨before, start, blankBefore, blankStart, rfl⟩ := nextKey_found_iff.mp next
    obtain ⟨m, key, gap, lead, spells, blank, blankLead, fills, rfl⟩ := member_of_readMember member
    obtain ⟨trail, members, texts, blankTrail, each, all, rfl⟩ := ih ok
    have written : Entry
        (start ++ quote :: (key ++ quote :: (gap ++ code ':' :: (lead ++ (m.value ++ trail))))) m :=
      ⟨start, key, gap, lead, trail, blankStart, spells, blank, blankLead, blankTrail, rfl⟩
    exact ⟨before, _, _, blankBefore, .cons written each, .cons fills all, by simp⟩

/-- Members that can fill the fields in turn are read to the closing bracket. -/
theorem readMembers_of_members {f g : Fields} {members : List Member} (all : FillsAll f members g)
    {texts : List (List UInt8)} (each : List.Forall₂ Entry texts members)
    {gap : List UInt8} (blank : Blanks gap) (first : Bool) (rest : List UInt8) :
    readMembers f first (gap ++ (joined first texts ++ code '\x7d' :: rest)) = .ok (g, rest) := by
  induction all generalizing texts gap first with
  | nil =>
    cases each
    exact readMembers_closed (nextKey_closed_iff.mpr ⟨gap, blank, rfl⟩)
  | @cons f g h m members here _ ih =>
    cases each with
    | @cons text _ texts _ written each =>
      obtain ⟨before, key, between, lead, trail, blankBefore, spells, blankBetween, blankLead,
          blankTrail, rfl⟩ :=
        written
      have ended : Ended (trail ++ (joined false texts ++ code '\x7d' :: rest)) :=
        ended_joined blankTrail texts (by decide) rest
      have member := readMember_of_fills spells blankBetween blankLead here ended
      rw [readMembers_found
        (nextKey_found_iff.mpr ⟨gap, before, blank, blankBefore, by simp⟩) member]
      exact ih each blankTrail false

/-- A field before and after the values given to it: at most one, and none where the field has its
value already. -/
inductive Once {α : Type} (denotes : List UInt8 → α → Prop) :
    Option α → List (List UInt8) → Option α → Prop
  | kept {o : Option α} : Once denotes o [] o
  | met {text : List UInt8} {a : α} (denoted : denotes text a) : Once denotes none [text] (some a)

theorem Once.of_some {α : Type} {denotes : List UInt8 → α → Prop} {a : α}
    {texts : List (List UInt8)} {o : Option α} (once : Once denotes (some a) texts o) :
    texts = [] ∧ o = some a := by
  cases once
  exact ⟨rfl, rfl⟩

theorem Once.of_nil {α : Type} {denotes : List UInt8 → α → Prop} {o left : Option α}
    (once : Once denotes o [] left) : left = o := by
  cases once
  rfl

theorem Once.of_cons {α : Type} {denotes : List UInt8 → α → Prop} {o left : Option α}
    {text : List UInt8} {texts : List (List UInt8)} (once : Once denotes o (text :: texts) left) :
    ∃ a, o = none ∧ texts = [] ∧ left = some a ∧ denotes text a := by
  cases once with
  | @met _ a denoted => exact ⟨a, rfl, rfl, rfl, denoted⟩

theorem once_none_some_iff {α : Type} {denotes : List UInt8 → α → Prop}
    {texts : List (List UInt8)} {a : α} :
    Once denotes none texts (some a) ↔ ∃ text, texts = [text] ∧ denotes text a := by
  constructor
  · rintro ⟨⟩
    exact ⟨_, rfl, ‹_›⟩
  · rintro ⟨text, rfl, denoted⟩
    exact .met denoted

theorem valuesAt_cons_self (m : Member) (members : List Member) :
    valuesAt m.key (m :: members) = m.value :: valuesAt m.key members := by
  simp [valuesAt]

theorem valuesAt_cons_ne {key : String} {m : Member} (unlike : m.key ≠ key)
    (members : List Member) : valuesAt key (m :: members) = valuesAt key members := by
  simp [valuesAt, unlike]

structure Shares (f : Fields) (members : List Member) (g : Fields) : Prop where
  mask : Once ByteLiteral f.mask (valuesAt "class_mask" members) g.mask
  flags : Once FlagList f.flags (valuesAt "flags" members) g.flags
  others : ∀ m ∈ members, m.key ≠ "class_mask" → m.key ≠ "flags" → Value m.value

theorem shares_of_fillsAll {f g : Fields} {members : List Member}
    (all : FillsAll f members g) : Shares f members g := by
  induction all with
  | nil => exact ⟨.kept, .kept, by simp⟩
  | @cons f g h m members here _ ih =>
    cases here with
    | @mask text b absent literal =>
      -- The mask has its value now, so by induction no later member brings another.
      obtain ⟨none_left, same⟩ := ih.mask.of_some
      refine ⟨?_, ?_, ?_⟩
      · rw [valuesAt_cons_self ⟨"class_mask", text⟩, none_left, same, absent]
        exact .met literal
      · rw [valuesAt_cons_ne (show "class_mask" ≠ "flags" by decide)]
        exact ih.flags
      · simpa using ih.others
    | @flags text v absent listed =>
      obtain ⟨none_left, same⟩ := ih.flags.of_some
      refine ⟨?_, ?_, ?_⟩
      · rw [valuesAt_cons_ne (show "flags" ≠ "class_mask" by decide)]
        exact ih.mask
      · rw [valuesAt_cons_self ⟨"flags", text⟩, none_left, same, absent]
        exact .met listed
      · simpa using ih.others
    | other unlike form =>
      refine ⟨?_, ?_, ?_⟩
      · rw [valuesAt_cons_ne unlike.1]
        exact ih.mask
      · rw [valuesAt_cons_ne unlike.2]
        exact ih.flags
      · exact List.forall_mem_cons.mpr ⟨fun _ _ => form, ih.others⟩

theorem fillsAll_of_shares {f g : Fields} {members : List Member} (shares : Shares f members g) :
    FillsAll f members g := by
  induction members generalizing f with
  | nil =>
    obtain ⟨mask, flags⟩ := g
    cases shares.mask.of_nil
    cases shares.flags.of_nil
    exact .nil
  | cons m members ih =>
    obtain ⟨mask, flags, others⟩ := shares
    obtain ⟨here, later⟩ := List.forall_mem_cons.mp others
    obtain ⟨key, value⟩ := m
    by_cases isMask : key = "class_mask"
    · subst isMask
      rw [valuesAt_cons_self ⟨"class_mask", value⟩] at mask
      rw [valuesAt_cons_ne (show "class_mask" ≠ "flags" by decide)] at flags
      obtain ⟨b, absent, none_left, filled, literal⟩ := mask.of_cons
      refine .cons (.mask absent literal) (ih ⟨?_, flags, later⟩)
      rw [none_left, filled]
      exact .kept
    by_cases isFlags : key = "flags"
    · subst isFlags
      rw [valuesAt_cons_ne (show "flags" ≠ "class_mask" by decide)] at mask
      rw [valuesAt_cons_self ⟨"flags", value⟩] at flags
      obtain ⟨v, absent, none_left, filled, listed⟩ := flags.of_cons
      refine .cons (.flags absent listed) (ih ⟨mask, ?_, later⟩)
      rw [none_left, filled]
      exact .kept
    rw [valuesAt_cons_ne isMask] at mask
    rw [valuesAt_cons_ne isFlags] at flags
    exact .cons (.other ⟨isMask, isFlags⟩ (here isMask isFlags)) (ih ⟨mask, flags, later⟩)

/-- Members fill both fields exactly if each field has one value among them and the others have
values of any shape. -/
theorem fillsAll_empty_iff {members : List Member} {p : Packed} :
    FillsAll .empty members ⟨some p.mask, some p.flags⟩ ↔ Holds members p := by
  constructor
  · intro all
    have shares := shares_of_fillsAll all
    exact ⟨once_none_some_iff.mp shares.mask, once_none_some_iff.mp shares.flags, shares.others⟩
  · intro holds
    exact fillsAll_of_shares
      ⟨once_none_some_iff.mpr holds.mask, once_none_some_iff.mpr holds.flags, holds.others⟩

theorem packed_eq_ok_iff {f : Fields} {p : Packed} :
    f.packed = .ok p ↔ f = ⟨some p.mask, some p.flags⟩ := by
  obtain ⟨mask, flags⟩ := f
  obtain ⟨bits, values⟩ := p
  cases mask <;> cases flags <;> simp [Fields.packed]

theorem Holds.nonempty {members : List Member} {p : Packed}
    (holds : Holds members p) : members ≠ [] := by
  rintro rfl
  obtain ⟨text, values, _⟩ := holds.mask
  cases values

end CharTable.Packed.Document
