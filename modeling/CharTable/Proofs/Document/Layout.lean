import CharTable.Proofs.Document.Reading

/-!
The written form of a packed table. It is the pretty layout of an object, with each item on a line
of its own and two blanks for each level, and reading it gives back the table.
-/
namespace CharTable.Packed.Document
open Json Ascii Grammar
open Json.Text (quote)

def newline (depth : Nat) : List UInt8 := code '\n' :: List.replicate (2 * depth) (code ' ')

/-- One item or more in a bracket that stands at a depth: one to a line and one level further in. -/
def block (k : Bracket) (depth : Nat) (items : List (List UInt8)) : List UInt8 :=
  opening k :: (separated (items.map (newline (depth + 1) ++ ·)) ++ newline depth ++ [k.close])

def labelled (key : String) (value : List UInt8) : List UInt8 :=
  quote :: (Utf8.encode key ++ quote :: code ':' :: code ' ' :: value)

def flagBlock (flags : Vector UInt8 256) : List UInt8 :=
  block .list 1 (flags.toList.map fun b => decimal b.toNat)

def pretty (p : Packed) : List UInt8 :=
  block .object 0 [labelled "class_mask" (decimal p.mask.toNat),
    labelled "flags" (flagBlock p.flags)]

theorem blanks_newline (depth : Nat) : Blanks (newline depth) := by
  intro b member
  obtain rfl | blank := List.mem_cons.mp member
  · decide
  · rw [(List.mem_replicate.mp blank).2]
    decide

/-- A break before each item is one before the first and one behind each comma. -/
theorem separated_lines {items : List (List UInt8)} (nonempty : items ≠ []) :
    separated (items.map (code '\n' :: ·)) = code '\n' ::
        List.intercalate (Utf8.encode ",\n") items := by
  have comma : Utf8.encode ",\n" = [code ',', code '\n'] := by decide
  induction items with
  | nil => exact absurd rfl nonempty
  | cons item items ih =>
    cases items with
    | nil => simp [separated]
    | cons next items =>
      rw [List.intercalate_cons_cons, separated_eq_joined, List.map_cons, joined_cons, comma]
      have rest := ih (List.cons_ne_nil next items)
      rw [separated_eq_joined, List.map_cons, joined_cons, comma] at rest
      rw [List.map_cons, joined_cons]
      simpa using rest

theorem flagBlock_eq (flags : Vector UInt8 256) :
    flagBlock flags = code '[' :: (code '\n' :: cells flags.toList ++ Utf8.encode "\n  ]") := by
  have breaks : (flags.toList.map fun b => decimal b.toNat).map (newline 2 ++ ·) =
      (flags.toList.map fun b => Utf8.encode "    " ++ decimal b.toNat).map (code '\n' :: ·) := by
    rw [List.map_map, List.map_map]
    rfl
  rw [flagBlock, block, breaks, separated_lines (by simp), cells,
    show Utf8.encode "\n  ]" = newline 1 ++ [Bracket.list.close] by decide]
  simp [opening]

/-- What the writer puts together is the layout, stated at once. -/
theorem write_eq_pretty (p : Packed) : write p = pretty p := by
  have opened : Utf8.encode "\x7b\n  \"class_mask\": " = code '\x7b' ::
      (newline 1 ++ quote :: (Utf8.encode "class_mask" ++ [quote, code ':', code ' '])) := by
    decide
  have middle : Utf8.encode ",\n  \"flags\": [\n" = code ',' ::
      (newline 1 ++ quote ::
      (Utf8.encode "flags" ++ [quote, code ':', code ' ', code '[', code '\n'])) := by
    decide
  have closed : Utf8.encode "\n  ]\n\x7d" = Utf8.encode "\n  ]" ++
      (newline 0 ++ [code '\x7d']) := by
    decide
  rw [write, opened, middle, closed, pretty, flagBlock_eq, block, separated_eq_joined]
  simp [labelled, opening, Bracket.close]

theorem digit_ofNat {n : Nat} (small : n < 10) :
    isDigit (UInt8.ofNat (48 + n)) = true ∧ digitValue (UInt8.ofNat (48 + n)) = n := by
  decide +revert

theorem digits_decimal (n : Nat) : Digits (decimal n) := by
  fun_induction decimal n with
  | case1 n small =>
    refine ⟨List.cons_ne_nil _ _, fun d member => ?_⟩
    rw [List.mem_singleton.mp member]
    exact (digit_ofNat small).1
  | case2 n large ih =>
    refine ⟨by simp, fun d member => ?_⟩
    obtain before | last := List.mem_append.mp member
    · exact ih.2 d before
    · rw [List.mem_singleton.mp last]
      exact (digit_ofNat (Nat.mod_lt n (by decide))).1

theorem extend_decimal (n : Nat) : Literal.extend 0 (decimal n) = n := by
  fun_induction decimal n with
  | case1 n small =>
    simpa [Literal.extend] using (digit_ofNat small).2
  | case2 n large ih =>
    unfold Literal.extend at ih ⊢
    rw [List.foldl_append, ih, List.foldl_cons, List.foldl_nil,
      (digit_ofNat (Nat.mod_lt n (by decide))).2]
    omega

theorem zero_of_head_decimal {n : Nat} (head : (decimal n).head? = some (code '0')) : n = 0 := by
  fun_induction decimal n with
  | case1 n small =>
    have value := (digit_ofNat small).2
    rw [Option.some.inj head] at value
    exact value.symm
  | case2 n large ih =>
    rw [List.head?_append_of_ne_nil _ (digits_decimal (n / 10)).1] at head
    have := ih head
    omega

/-- The decimal digits of a number are a literal of its value. -/
theorem natural_decimal (n : Nat) : Natural (decimal n) n := by
  refine ⟨⟨digits_decimal n, fun head => ?_⟩, ?_⟩
  · rw [zero_of_head_decimal head, decimal]
    rfl
  · rw [Literal.ofDigits_eq_extend, extend_decimal]

theorem spells_of_plain {text : List UInt8}
    (plain : text.all (Plain ·) = true) : Spells text text := by
  induction text with
  | nil => exact .empty
  | cons b text ih =>
    rw [List.all_cons, Bool.and_eq_true, decide_eq_true_eq] at plain
    exact .plain plain.1 (ih plain.2)

theorem Entry.trailed {m : Member} {text gap : List UInt8} (blank : Blanks gap)
    (entry : Entry text m) : Entry (text ++ gap) m := by
  obtain ⟨before, key, between, lead, trail, blankBefore, spells, blankBetween, blankLead,
      blankTrail, rfl⟩ :=
    entry
  exact ⟨before, key, between, lead, trail ++ gap, blankBefore, spells, blankBetween, blankLead,
    blankTrail.append blank, by simp⟩

/-- The items of a block are its lines, of which the last ends with the break before the bracket. -/
theorem exists_block {α : Type} {form : List UInt8 → α → Prop} {texts : List (List UInt8)}
    {items : List α} (trail : ∀ text gap a, Blanks gap → form text a → form (text ++ gap) a)
    (nonempty : items ≠ []) (k : Bracket) (depth : Nat)
    (each : List.Forall₂ (fun text a => form (newline (depth + 1) ++ text) a) texts items) :
    ∃ others, List.Forall₂ form others items ∧
      block k depth texts = opening k :: (separated others ++ [k.close]) := by
  have lines : List.Forall₂ form (texts.map (newline (depth + 1) ++ ·)) items :=
    List.forall₂_map_left_iff.mpr each
  obtain ⟨others, formed, same⟩ := exists_trailed trail lines nonempty (blanks_newline depth) true
  exact ⟨others, formed, by rw [block, separated_eq_joined, same, separated_eq_joined]⟩

theorem flagList_flagBlock (flags : Vector UInt8 256) : FlagList (flagBlock flags) flags := by
  have nonempty : flags.toList ≠ [] := List.ne_nil_of_length_eq_add_one flags.length_toList
  have line (b : UInt8) : Cell (newline 2 ++ decimal b.toNat) b :=
    ⟨newline 2, decimal b.toNat, [], blanks_newline 2, natural_decimal b.toNat, blanks_nil, by simp⟩
  have each : List.Forall₂ (fun text b => Cell (newline 2 ++ text) b)
      (flags.toList.map fun b => decimal b.toNat) flags.toList :=
    List.forall₂_map_left_iff.mpr (List.forall₂_same.mpr fun b _ => line b)
  exact exists_block (fun _ _ _ => Padded.trailed) nonempty .list 1 each

theorem entry_labelled {key : String} (plain : (Utf8.encode key).all (Plain ·) = true)
    (value : List UInt8) : Entry (newline 1 ++ labelled key value) ⟨key, value⟩ :=
  ⟨newline 1, Utf8.encode key, [], [code ' '], [], blanks_newline 1, spells_of_plain plain,
    blanks_nil, by decide, blanks_nil, by simp [labelled]⟩

/-- The layout is one of the texts that describe the table. -/
theorem describes_pretty (p : Packed) : Describes (pretty p) p := by
  have each : List.Forall₂ (fun text m => Entry (newline 1 ++ text) m)
      [labelled "class_mask" (decimal p.mask.toNat), labelled "flags" (flagBlock p.flags)]
      [⟨"class_mask", decimal p.mask.toNat⟩, ⟨"flags", flagBlock p.flags⟩] :=
    .cons (entry_labelled (by decide) _) (.cons (entry_labelled (by decide) _) .nil)
  obtain ⟨texts, formed, same⟩ :=
    exists_block (fun _ _ _ => Entry.trailed) (List.cons_ne_nil _ _) .object 0 each
  have holds : Holds [⟨"class_mask", decimal p.mask.toNat⟩, ⟨"flags", flagBlock p.flags⟩] p := by
    refine ⟨⟨_, rfl, natural_decimal p.mask.toNat⟩, ⟨_, rfl, flagList_flagBlock p.flags⟩, ?_⟩
    simp
  exact ⟨[], pretty p, [], blanks_nil, .inl ⟨_, texts, formed, holds, same⟩, blanks_nil, by simp⟩

/-- What is written is the pretty layout, and reading it gives back the table. -/
theorem read_write (p : Packed) : write p = pretty p ∧ read (write p) = .ok p := by
  refine ⟨write_eq_pretty p, ?_⟩
  rw [write_eq_pretty]
  exact read_of_describes (describes_pretty p)

end CharTable.Packed.Document
