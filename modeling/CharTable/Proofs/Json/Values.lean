import CharTable.Proofs.Json.Numbers
import CharTable.Proofs.Json.Strings

/-!
Values of any shape are passed over as the grammar has them. The brackets still open say what the
rest of a text has to be; each step takes a piece off the front that fits in before it, and a value
of the grammar leaves the open brackets as they were.
-/
namespace CharTable.Json

namespace Grammar

structure Slot.Fits (s : Slot) (k : Bracket) : Prop where
  lead : Lead k s.lead
  value : Value s.value
  trail : Blanks s.trail

/-- What is left of a text when a value comes next, or has just been met, inside open brackets. -/
inductive Completes : Pending → List UInt8 → Prop
  | done : Completes ⟨false, []⟩ []
  | value {outer : List Bracket} {lead value text : List UInt8} (blank : Blanks lead)
      (form : Value value) (rest : Completes ⟨false, outer⟩ text) :
      Completes ⟨true, outer⟩ (lead ++ (value ++ text))
  | close {k : Bracket} {outer : List Bracket} {gap text : List UInt8} {items : List Slot}
      (blank : Blanks gap) (fits : ∀ s ∈ items, s.Fits k) (rest : Completes ⟨false, outer⟩ text) :
      Completes ⟨false, k :: outer⟩ (gap ++ (joined false (items.map Slot.text) ++ k.close :: text))

theorem Value.of_items {k : Bracket} {items : List Slot} (nonempty : items ≠ [])
    (fits : ∀ s ∈ items, s.Fits k) :
    Value (opening k :: (separated (items.map Slot.text) ++ [k.close])) :=
  .filled k nonempty (fun s member => (fits s member).lead) (fun s member => (fits s member).value)
    fun s member => (fits s member).trail

theorem isBlank_close (k : Bracket) : isBlank k.close = false := by
  cases k <;> decide

theorem isBlank_opening (k : Bracket) : isBlank (opening k) = false := by
  cases k <;> decide

end Grammar

open Ascii Grammar
open Text (quote)

theorem readWord_eq_ok_iff {word bytes rest : List UInt8} :
    readWord word bytes = .ok rest ↔ bytes = word ++ rest := by
  fun_induction readWord word bytes with
  | case1 bytes => simp
  | case2 => simp
  | case3 word b bytes ih => simpa using ih
  | case4 w word b bytes other => simp [other]

namespace Pending

theorem value_of_skipScalar {b : UInt8} {bytes rest : List UInt8}
    (ok : skipScalar b bytes = .ok rest) : ∃ value, Value value ∧ b :: bytes = value ++ rest := by
  unfold skipScalar at ok
  split at ok
  · rename_i first
    rw [readWord_eq_ok_iff.mp ok, first]
    exact ⟨_, .word (w := "null") (by simp), rfl⟩
  split at ok
  · rename_i first
    rw [readWord_eq_ok_iff.mp ok, first]
    exact ⟨_, .word (w := "true") (by simp), rfl⟩
  split at ok
  · rename_i first
    rw [readWord_eq_ok_iff.mp ok, first]
    exact ⟨_, .word (w := "false") (by simp), rfl⟩
  split at ok
  · obtain ⟨⟨l, after⟩, read, rfl⟩ := map_eq_ok.mp ok
    obtain ⟨text, written, split⟩ := Literal.written_of_read read
    exact ⟨text, .number written.number, split⟩
  split at ok
  · rename_i first
    obtain ⟨body, loose, rfl⟩ := Text.skip_eq_ok_iff.mp ok
    exact ⟨_, .string loose, by simp [first]⟩
  · cases ok

theorem lead_split {k : Bracket} {bytes rest : List UInt8} (ok : k.lead bytes = .ok rest) :
    ∃ text, bytes = text ++ rest ∧
      ∀ before after, Blanks before → Blanks after → Lead k (before ++ (text ++ after)) := by
  cases k with
  | list =>
    cases ok
    exact ⟨[], rfl, fun _ _ before after => before.append after⟩
  | object =>
    simp only [Bracket.lead] at ok
    split at ok
    · cases ok
    rename_i found
    obtain ⟨_, gap, blank, rfl⟩ := dropBlanks_eq_cons found
    split at ok
    · rename_i quoted
      obtain ⟨afterKey, skipped, colon⟩ := bind_eq_ok.mp ok
      obtain ⟨key, loose, rfl⟩ := Text.skip_eq_ok_iff.mp skipped
      obtain ⟨between, blankBetween, rfl⟩ := readColon_eq_ok_iff.mp colon
      refine ⟨gap ++ quote :: (key ++ quote :: (between ++ [code ':'])), by simp [quoted], ?_⟩
      intro before after blankBefore blankAfter
      exact ⟨before ++ gap, key, between, after, blankBefore.append blank, loose, blankBetween,
        blankAfter, by simp⟩
    · cases ok

/-- What follows the lead of an item completes it and the items after it. -/
theorem items_of_lead {k : Bracket} {bytes rest : List UInt8} (ok : k.lead bytes = .ok rest) :
    ∃ piece, bytes = piece ++ rest ∧
      ∀ outer before text, Blanks before → Completes ⟨true, k :: outer⟩ text →
        ∃ s items last, (∀ i ∈ s :: items, Slot.Fits i k) ∧ Completes ⟨false, outer⟩ last ∧
          before ++ (piece ++ text) = s.text ++
              (joined false (items.map Slot.text) ++ k.close :: last) := by
  obtain ⟨piece, split, leads⟩ := lead_split ok
  refine ⟨piece, split, ?_⟩
  intro outer before text blank completes
  cases completes with
  | @value _ after value _ blankAfter form completes =>
    cases completes with
    | @close _ _ trail last items blankTrail fits completes =>
      refine ⟨⟨before ++ (piece ++ after), value, trail⟩, items, last, ?_,
        completes, by simp [Slot.text]⟩
      intro i member
      rcases List.mem_cons.mp member with rfl | member
      · exact ⟨leads before after blank blankAfter, form, blankTrail⟩
      · exact fits i member

theorem value_of_enter {k : Bracket} {outer : List Bracket} {bytes rest : List UInt8}
    {next : Pending} (ok : enter k outer bytes = .ok (next, rest)) :
    ∃ piece, bytes = piece ++ rest ∧
      ∀ text, Completes next text →
        ∃ value last, Value value ∧ Completes ⟨false, outer⟩ last ∧
          opening k :: (piece ++ text) = value ++ last := by
  unfold enter at ok
  split at ok
  · cases ok
  rename_i found
  obtain ⟨_, gap, blank, rfl⟩ := dropBlanks_eq_cons found
  split at ok
  · rename_i closed
    cases ok
    refine ⟨gap ++ [k.close], by simp [closed], ?_⟩
    intro text completes
    exact ⟨_, text, .empty k blank, completes, by simp⟩
  · obtain ⟨after, lead, same⟩ := map_eq_ok.mp ok
    cases same
    obtain ⟨piece, split, items⟩ := items_of_lead lead
    refine ⟨gap ++ piece, by simp [split], ?_⟩
    intro text completes
    obtain ⟨s, others, last, fits, rest, same⟩ := items outer gap text blank completes
    refine ⟨_, last, .of_items (List.cons_ne_nil s others) fits, rest, ?_⟩
    rw [List.append_assoc, same, separated_eq_joined]
    simp

theorem completes_of_start {outer : List Bracket} {bytes rest : List UInt8} {next : Pending}
    (ok : start outer bytes = .ok (next, rest)) :
    ∃ piece, bytes = piece ++ rest ∧
      ∀ text, Completes next text → Completes ⟨true, outer⟩ (piece ++ text) := by
  unfold start at ok
  split at ok
  · cases ok
  rename_i b tail found
  obtain ⟨_, gap, blank, rfl⟩ := dropBlanks_eq_cons found
  have entered {k : Bracket} (first : b = opening k) (ok : enter k outer tail = .ok (next, rest)) :
      ∃ piece, gap ++ b :: tail = piece ++ rest ∧
        ∀ text, Completes next text → Completes ⟨true, outer⟩ (piece ++ text) := by
    obtain ⟨piece, split, values⟩ := value_of_enter ok
    refine ⟨gap ++ b :: piece, by simp [split], ?_⟩
    intro text completes
    obtain ⟨value, last, form, rest, same⟩ := values text completes
    rw [List.append_assoc, List.cons_append, first, same]
    exact .value blank form rest
  split at ok
  · rename_i first
    exact entered (k := .list) first ok
  split at ok
  · rename_i first
    exact entered (k := .object) first ok
  · obtain ⟨after, skipped, same⟩ := map_eq_ok.mp ok
    cases same
    obtain ⟨value, form, split⟩ := value_of_skipScalar skipped
    refine ⟨gap ++ value, by simp [split], ?_⟩
    intro text completes
    rw [List.append_assoc]
    exact .value blank form completes

theorem completes_of_follow {k : Bracket} {outer : List Bracket} {bytes rest : List UInt8}
    {next : Pending} (ok : follow k outer bytes = .ok (next, rest)) :
    ∃ piece, bytes = piece ++ rest ∧
      ∀ text, Completes next text → Completes ⟨false, k :: outer⟩ (piece ++ text) := by
  unfold follow at ok
  split at ok
  · cases ok
  rename_i found
  obtain ⟨_, gap, blank, rfl⟩ := dropBlanks_eq_cons found
  split at ok
  · rename_i closed
    cases ok
    refine ⟨gap ++ [k.close], by simp [closed], ?_⟩
    intro text completes
    have closes : Completes ⟨false, k :: outer⟩
      (gap ++ (joined false (List.map Slot.text []) ++ k.close :: text)) :=
      .close blank (by simp) completes
    simpa using closes
  split at ok
  · rename_i comma
    obtain ⟨after, lead, same⟩ := map_eq_ok.mp ok
    cases same
    obtain ⟨piece, split, items⟩ := items_of_lead lead
    refine ⟨gap ++ code ',' :: piece, by simp [split, comma], ?_⟩
    intro text completes
    obtain ⟨s, others, last, fits, rest, same⟩ := items outer [] text blanks_nil completes
    have closes := Completes.close blank fits rest
    rw [List.nil_append] at same
    rw [List.append_assoc, List.cons_append, same]
    simpa using closes
  · cases ok

/-- A step takes a piece off the front that fits before whatever completes the brackets left open.
-/
theorem completes_of_step {p next : Pending} {bytes rest : List UInt8}
    (taken : p.step bytes = some (.ok (next, rest))) :
    ∃ piece, bytes = piece ++ rest ∧ ∀ text, Completes next text → Completes p (piece ++ text) := by
  obtain ⟨value, brackets⟩ := p
  cases value with
  | true => exact completes_of_start (Option.some.inj taken)
  | false =>
    cases brackets with
    | nil => cases taken
    | cons k outer => exact completes_of_follow (Option.some.inj taken)

/-- What a run passes over completes the brackets that were open. -/
theorem completes_of_run {p : Pending} {bytes rest : List UInt8} (ok : p.run bytes = .ok rest) :
    ∃ text, Completes p text ∧ bytes = text ++ rest := by
  fun_induction run p bytes with
  | case1 p bytes finished =>
    cases ok
    obtain ⟨value, brackets⟩ := p
    cases value with
    | true => cases finished
    | false =>
      cases brackets with
      | nil => exact ⟨[], .done, rfl⟩
      | cons k outer => cases finished
  | case2 => cases ok
  | case3 p bytes next after taken _ ih =>
    obtain ⟨piece, rfl, before⟩ := completes_of_step taken
    obtain ⟨text, completes, rfl⟩ := ih ok
    exact ⟨piece ++ text, before text completes, by simp⟩

theorem run_step {p next : Pending} {bytes rest : List UInt8}
    (taken : p.step bytes = some (.ok (next, rest))) : p.run bytes = next.run rest := by
  rw [run]
  split
  · rename_i none
    rw [none] at taken
    cases taken
  · rename_i failed
    rw [failed] at taken
    cases taken
  · rename_i found
    cases found.symm.trans taken
    rfl

theorem not_numeric_bracket (k : Bracket) :
    (k.close ≠ code '-' ∧ isDigit k.close = false) ∧ opening k ≠ code '-' ∧
      isDigit (opening k) = false := by
  cases k <;> decide

theorem value_front {value : List UInt8} (form : Value value) :
    ∃ b tail, value = b :: tail ∧ isBlank b = false ∧ ∀ k, b ≠ Bracket.close k := by
  cases form with
  | word listed =>
    simp only [List.mem_cons, List.not_mem_nil, or_false] at listed
    rcases listed with rfl | rfl | rfl
    · exact ⟨_, _, rfl, by decide, fun k => by cases k <;> decide⟩
    · exact ⟨_, _, rfl, by decide, fun k => by cases k <;> decide⟩
    · exact ⟨_, _, rfl, by decide, fun k => by cases k <;> decide⟩
  | number form =>
    obtain ⟨b, tail, front, numeric⟩ := number_front form
    exact ⟨b, tail, front, numeric.unblank, fun k => numeric.ne (not_numeric_bracket k).1⟩
  | string form => exact ⟨_, _, rfl, by decide, fun k => by cases k <;> decide⟩
  | empty j _ => exact ⟨_, _, rfl, isBlank_opening j, fun k => by cases j <;> cases k <;> decide⟩
  | filled j _ _ _ _ =>
    exact ⟨_, _, rfl, isBlank_opening j, fun k => by cases j <;> cases k <;> decide⟩

theorem lead_of_fits {k : Bracket} {text : List UInt8} (fits : Lead k text) (rest : List UInt8) :
    ∃ after, Blanks after ∧ k.lead (text ++ rest) = .ok (after ++ rest) := by
  cases k with
  | list => exact ⟨text, fits, rfl⟩
  | object =>
    obtain ⟨before, key, gap, after, blankBefore, loose, blankGap, blankAfter, rfl⟩ := fits
    refine ⟨after, blankAfter, ?_⟩
    simp only [Bracket.lead, List.append_assoc, List.cons_append]
    rw [dropBlanks_mark blankBefore (by decide)]
    dsimp only
    rw [if_pos rfl]
    refine bind_eq_ok.mpr ⟨_, Text.skip_eq_ok_iff.mpr ⟨key, loose, rfl⟩,
      readColon_eq_ok_iff.mpr ⟨gap, blankGap, rfl⟩⟩

theorem enter_of_fits {k : Bracket} {lead value : List UInt8} (fits : Lead k lead)
    (form : Value value) (outer : List Bracket) (rest : List UInt8) :
    ∃ after, Blanks after ∧
      enter k outer (lead ++ (value ++ rest)) =
          .ok (⟨true, k :: outer⟩, after ++ (value ++ rest)) := by
  cases k with
  | list =>
    obtain ⟨b, tail, rfl, unblank, unclosed⟩ := value_front form
    refine ⟨[], blanks_nil, ?_⟩
    rw [enter, List.cons_append, dropBlanks_mark fits unblank]
    dsimp only
    rw [if_neg (unclosed .list)]
    rfl
  | object =>
    obtain ⟨before, key, gap, last, blankBefore, loose, blankGap, blankLast, rfl⟩ := fits
    have bare : Lead .object (quote :: (key ++ quote :: (gap ++ code ':' :: last))) :=
      ⟨[], key, gap, last, blanks_nil, loose, blankGap, blankLast, rfl⟩
    obtain ⟨after, blankAfter, lead⟩ := lead_of_fits bare (value ++ rest)
    refine ⟨after, blankAfter, ?_⟩
    rw [enter, List.append_assoc, List.cons_append, dropBlanks_mark blankBefore (by decide)]
    dsimp only
    rw [if_neg (by decide), ← List.cons_append, lead]
    rfl

theorem start_of_bracket {k : Bracket} {gap : List UInt8} (blank : Blanks gap)
    (outer : List Bracket) (rest : List UInt8) :
    start outer (gap ++ opening k :: rest) = enter k outer rest := by
  rw [start, dropBlanks_mark blank (isBlank_opening k)]
  cases k with
  | list => exact if_pos rfl
  | object => exact (if_neg (by decide)).trans (if_pos rfl)

theorem start_of_scalar {gap rest after : List UInt8} {b : UInt8} (blank : Blanks gap)
    (unblank : isBlank b = false) (unopened : ∀ k, b ≠ opening k)
    (skipped : skipScalar b rest = .ok after) (outer : List Bracket) :
    start outer (gap ++ b :: rest) = .ok (⟨false, outer⟩, after) := by
  rw [start, dropBlanks_mark blank unblank]
  dsimp only
  rw [if_neg (show b ≠ code '[' from unopened .list),
    if_neg (show b ≠ code '\x7b' from unopened .object), skipped]
  rfl

theorem follow_of_close {k : Bracket} {gap : List UInt8} (blank : Blanks gap) (outer : List Bracket)
    (rest : List UInt8) : follow k outer (gap ++ k.close :: rest) = .ok (⟨false, outer⟩, rest) := by
  rw [follow, dropBlanks_mark blank (isBlank_close k)]
  exact if_pos rfl

theorem follow_of_comma {k : Bracket} {gap lead : List UInt8} (blank : Blanks gap)
    (fits : Lead k lead) (outer : List Bracket) (rest : List UInt8) :
    ∃ after, Blanks after ∧
      follow k outer (gap ++ code ',' :: (lead ++ rest)) =
          .ok (⟨true, k :: outer⟩, after ++ rest) := by
  obtain ⟨after, blankAfter, read⟩ := lead_of_fits fits rest
  refine ⟨after, blankAfter, ?_⟩
  have unclosed : code ',' ≠ k.close := by cases k <;> decide
  rw [follow, dropBlanks_mark blank (by decide)]
  dsimp only
  rw [if_neg unclosed, if_pos rfl, read]
  rfl

/-- The run passes over the text, whatever blanks stand before it and whichever brackets are
open. -/
def Passes (value : List UInt8) : Prop := ∀ outer gap rest, Blanks gap → Ended rest →
  run ⟨true, outer⟩ (gap ++ (value ++ rest)) = run ⟨false, outer⟩ rest

theorem passes_of_scalar {value : List UInt8} {b : UInt8} {tail : List UInt8}
    (front : value = b :: tail) (unblank : isBlank b = false) (unopened : ∀ k, b ≠ opening k)
    (skipped : ∀ rest, Ended rest → skipScalar b (tail ++ rest) = .ok rest) : Passes value := by
  intro outer gap rest blank ended
  subst front
  apply run_step
  exact congrArg some (start_of_scalar blank unblank unopened (skipped rest ended) outer)

theorem passes_word {w : String} (listed : w ∈ ["null", "true", "false"]) :
    Passes (Utf8.encode w) := by
  simp only [List.mem_cons, List.not_mem_nil, or_false] at listed
  rcases listed with rfl | rfl | rfl
  · exact passes_of_scalar rfl (by decide) (fun k => by cases k <;> decide) fun _ _ =>
      readWord_eq_ok_iff.mpr rfl
  · exact passes_of_scalar rfl (by decide) (fun k => by cases k <;> decide) fun _ _ =>
      readWord_eq_ok_iff.mpr rfl
  · exact passes_of_scalar rfl (by decide) (fun k => by cases k <;> decide) fun _ _ =>
      readWord_eq_ok_iff.mpr rfl

theorem passes_number {text : List UInt8} (form : Grammar.Number text) : Passes text := by
  obtain ⟨l, written⟩ := Literal.exists_written form
  obtain ⟨b, tail, rfl, numeric⟩ := number_front form
  apply passes_of_scalar rfl numeric.unblank fun k => numeric.ne (not_numeric_bracket k).2
  intro rest ended
  obtain ⟨lowered, read⟩ := Literal.read_of_written written ended .invalidNumber
  rw [skipScalar, if_neg (numeric.ne (by decide)), if_neg (numeric.ne (by decide)),
    if_neg (numeric.ne (by decide)), if_pos (show b = code '-' ∨ isDigit b = true from numeric),
    ← List.cons_append, read]
  rfl

theorem passes_string {text : List UInt8} (form : Loose text) :
    Passes (quote :: (text ++ [quote])) := by
  apply passes_of_scalar rfl (by decide) fun k => by cases k <;> decide
  intro rest _
  have read : Text.skip (text ++ [quote] ++ rest) = .ok rest :=
    Text.skip_eq_ok_iff.mpr ⟨text, form, by simp⟩
  rw [skipScalar, if_neg (by decide), if_neg (by decide), if_neg (by decide),
    if_neg (by decide), if_pos rfl, read]

theorem ended_items {k : Bracket} {gap : List UInt8} (blank : Blanks gap) (items : List Slot)
    (rest : List UInt8) :
    Ended (gap ++ (joined false (items.map Slot.text) ++ k.close :: rest)) := by
  cases k with
  | list => exact ended_joined blank _ (by decide) rest
  | object => exact ended_joined blank _ (by decide) rest

/-- The items that follow a value are passed over, and the bracket is closed. -/
theorem run_items {k : Bracket} {items : List Slot} (leads : ∀ s ∈ items, Lead k s.lead)
    (passes : ∀ s ∈ items, Passes s.value) (trails : ∀ s ∈ items, Blanks s.trail)
    (outer : List Bracket) {gap : List UInt8} (blank : Blanks gap) (rest : List UInt8) :
    run ⟨false, k :: outer⟩ (gap ++ (joined false (items.map Slot.text) ++ k.close :: rest)) =
        run ⟨false, outer⟩ rest := by
  induction items generalizing gap with
  | nil => exact run_step (congrArg some (follow_of_close blank outer rest))
  | cons s items ih =>
    have trail := trails s (by simp)
    obtain ⟨after, blankAfter, follows⟩ := follow_of_comma blank (leads s (by simp)) outer
      (s.value ++ (s.trail ++ (joined false (items.map Slot.text) ++ k.close :: rest)))
    calc
      _ = run ⟨true, k :: outer⟩ (after ++ (s.value ++
            (s.trail ++ (joined false (items.map Slot.text) ++ k.close :: rest)))) := by
          simp only [List.map_cons, joined_cons, comma_false, Slot.text, List.append_assoc,
            List.cons_append, List.nil_append]
          exact run_step (congrArg some follows)
      _ = run ⟨false, k :: outer⟩
            (s.trail ++ (joined false (items.map Slot.text) ++ k.close :: rest)) :=
          passes s (by simp) (k :: outer) after _ blankAfter (ended_items trail items rest)
      _ = run ⟨false, outer⟩ rest :=
          ih (fun i member => leads i (by simp [member]))
            (fun i member => passes i (by simp [member]))
            (fun i member => trails i (by simp [member])) trail

/-- Every value is passed over: one case for each shape, the items of a list or object by
induction. -/
theorem passes_value {value : List UInt8} (form : Value value) : Passes value := by
  induction form with
  | word listed => exact passes_word listed
  | number form => exact passes_number form
  | string form => exact passes_string form
  | @empty k inner blankInner =>
    intro outer gap rest blank _
    apply run_step
    refine congrArg some ?_
    rw [List.cons_append, List.append_assoc, start_of_bracket blank, enter, List.singleton_append,
      dropBlanks_mark blankInner (isBlank_close k)]
    exact if_pos rfl
  | @filled k items nonempty leads values trails passes =>
    intro outer gap rest blank _
    -- The first item has no comma before it; from its end on the items are those of `run_items`.
    cases items with
    | nil => exact absurd rfl nonempty
    | cons s items =>
      have trail := trails s (by simp)
      obtain ⟨after, blankAfter, enters⟩ :=
        enter_of_fits (leads s (by simp)) (values s (by simp)) outer
          (s.trail ++ (joined false (items.map Slot.text) ++ k.close :: rest))
      calc
        _ = run ⟨true, k :: outer⟩ (after ++ (s.value ++
              (s.trail ++ (joined false (items.map Slot.text) ++ k.close :: rest)))) := by
            apply run_step
            refine congrArg some ?_
            rw [List.cons_append, start_of_bracket blank, ← enters]
            simp [separated_eq_joined, Slot.text]
        _ = run ⟨false, k :: outer⟩
              (s.trail ++ (joined false (items.map Slot.text) ++ k.close :: rest)) :=
            passes s (by simp) (k :: outer) after _ blankAfter (ended_items trail items rest)
        _ = run ⟨false, outer⟩ rest :=
            run_items (fun i member => leads i (by simp [member]))
              (fun i member => passes i (by simp [member]))
              (fun i member => trails i (by simp [member])) outer trail rest

end Pending

theorem value_of_skipValue {bytes rest : List UInt8} (ok : skipValue bytes = .ok rest) :
    ∃ gap value, Blanks gap ∧ Value value ∧ bytes = gap ++ (value ++ rest) := by
  obtain ⟨_, completes, split⟩ := Pending.completes_of_run ok
  cases completes with
  | value blank form completes =>
    cases completes with
    | done => exact ⟨_, _, blank, form, by simpa using split⟩

theorem skipValue_of_value {gap value rest : List UInt8} (blank : Blanks gap) (form : Value value)
    (ended : Ended rest) : skipValue (gap ++ (value ++ rest)) = .ok rest := by
  rw [skipValue, Pending.passes_value form [] gap rest blank ended, Pending.run]
  rfl

end CharTable.Json
