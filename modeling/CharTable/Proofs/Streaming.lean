import CharTable.Table.Initializer

/-!
What a table leaves in a sink. Pieces offered one after the other are taken as their bytes would be
taken at once, and so are the lines of a table: the sink ends with as much of the text of the table
as it holds, wherever that cuts it, and however short its single writes are.
-/
namespace CharTable

theorem Utf8.encode_join (texts : List String) :
    encode (String.join texts) = texts.flatMap encode := by
  induction texts with
  | nil => rfl
  | cons text texts ih => rw [String.join_cons, encode_append, ih, List.flatMap_cons]

namespace Sink

def room (s : Sink) : Nat := s.capacity - s.stored.size

def store (s : Sink) (bytes : List UInt8) : Sink := { s with stored := s.stored ++ bytes }

@[simp] theorem store_nil (s : Sink) : s.store [] = s := by
  simp [store]

@[simp] theorem room_store (s : Sink) (bytes : List UInt8) :
    (s.store bytes).room = s.room - bytes.length := by
  have grown : (s.stored ++ bytes).size = s.stored.size + bytes.length := by
    rw [← Array.length_toList, Array.toList_appendList, List.length_append, Array.length_toList]
  rw [room, store, grown, Nat.sub_add_eq]
  rfl

theorem store_store (s : Sink) (first second : List UInt8) :
    (s.store first).store second = s.store (first ++ second) := by
  have joined : s.stored ++ first ++ second = s.stored ++ (first ++ second) := by
    apply Array.ext'
    simp
  simp only [store, joined]

theorem offer_eq (s : Sink) (piece : List UInt8) :
    s.offer piece = (decide (piece.length ≤ s.room), s.store (piece.take s.room)) :=
  rfl

theorem offer_fitting {s : Sink} {piece : List UInt8} (fits : piece.length ≤ s.room) :
    s.offer piece = (true, s.store piece) := by
  rw [offer_eq, decide_eq_true fits, List.take_of_length_le fits]

theorem offer_overlong {s : Sink} {piece : List UInt8} (long : s.room < piece.length) :
    s.offer piece = (false, s.store (piece.take s.room)) := by
  rw [offer_eq, decide_eq_false (Nat.not_le.mpr long)]

theorem offer_fitting_append {s : Sink} {first : List UInt8} (fits : first.length ≤ s.room)
    (second : List UInt8) : s.offer (first ++ second) = (s.store first).offer second := by
  rw [offer_eq, offer_eq, room_store, store_store, List.take_append, List.take_of_length_le fits,
    List.length_append]
  have same : first.length + second.length ≤ s.room ↔ second.length ≤ s.room - first.length := by
    omega
  simp only [same]

theorem offer_overlong_append {s : Sink} {first : List UInt8} (long : s.room < first.length)
    (second : List UInt8) : s.offer (first ++ second) = s.offer first := by
  rw [offer_overlong long, offer_overlong (by rw [List.length_append]; omega),
    List.take_append_of_le_length (by omega)]

/-- Pieces are taken as all their bytes at once. -/
theorem offerAll_eq (s : Sink) (pieces : List (List UInt8)) :
    s.offerAll pieces = s.offer pieces.flatten := by
  induction pieces generalizing s with
  | nil => simp [offerAll, offer_eq]
  | cons piece pieces ih =>
    rw [offerAll, List.flatten_cons]
    by_cases fits : piece.length ≤ s.room
    · rw [offer_fitting fits, offer_fitting_append fits]
      exact ih _
    · rw [offer_overlong_append (Nat.not_le.mp fits), offer_overlong (Nat.not_le.mp fits)]

theorem offer_ofCapacity (n : Nat) (bytes : List UInt8) :
    (ofCapacity n).offer bytes = (decide (bytes.length ≤ n), ⟨n, (bytes.take n).toArray⟩) := by
  simp [offer_eq, ofCapacity, room, store]

/-- A run of single writes that offers pieces in turn. A write takes some first bytes of what is
left of a piece, as few as it likes but at least one while there is room; where there is none the
piece is refused. -/
inductive Streamed : Sink → List (List UInt8) → Bool → Sink → Prop
  | done (s : Sink) : Streamed s [] true s
  | next {s t : Sink} {pieces : List (List UInt8)} {whole : Bool}
      (later : Streamed s pieces whole t) : Streamed s ([] :: pieces) whole t
  | short {s t : Sink} {piece : List UInt8} {pieces : List (List UInt8)} {whole : Bool}
      {taken : Nat} (some : 0 < taken) (within : taken ≤ piece.length) (fits : taken ≤ s.room)
      (later : Streamed (s.store (piece.take taken)) (piece.drop taken :: pieces) whole t) :
      Streamed s (piece :: pieces) whole t
  | refused {s : Sink} {piece : List UInt8} (left : piece ≠ []) (full : s.room = 0)
      (pieces : List (List UInt8)) : Streamed s (piece :: pieces) false s

variable {s t : Sink} {pieces : List (List UInt8)} {whole : Bool}

/-- However short its writes, a run leaves what offering all the bytes at once would leave. -/
theorem offer_of_streamed (run : Streamed s pieces whole t) :
    s.offer pieces.flatten = (whole, t) := by
  induction run with
  | done s => simp [offer_eq]
  | next _ ih => exact ih
  | @short s _ piece pieces _ taken some within fits _ ih =>
    -- What a short write takes fits, so it is the front of what all the bytes at once would leave
    -- there.
    have cut : piece = piece.take taken ++ piece.drop taken :=
      (List.take_append_drop taken piece).symm
    rw [← ih, List.flatten_cons, List.flatten_cons, cut, List.append_assoc, offer_fitting_append]
    · simp
    · exact Nat.le_trans (List.length_take_le taken piece) fits
  | @refused s piece left full pieces =>
    have some := List.length_pos_iff.mpr left
    rw [List.flatten_cons, offer_overlong (by rw [List.length_append]; omega), full]
    simp

/-- Every list of pieces has a run. -/
theorem exists_streamed (s : Sink) (pieces : List (List UInt8)) :
    ∃ whole t, Streamed s pieces whole t := by
  induction pieces generalizing s with
  | nil => exact ⟨true, s, .done s⟩
  | cons piece pieces ih =>
    by_cases left : piece = []
    · obtain ⟨whole, t, run⟩ := ih s
      exact ⟨whole, t, left ▸ .next run⟩
    have some := List.length_pos_iff.mpr left
    by_cases full : s.room = 0
    · exact ⟨false, s, .refused left full pieces⟩
    by_cases fits : piece.length ≤ s.room
    · obtain ⟨whole, t, run⟩ := ih (s.store piece)
      refine ⟨whole, t, .short some (Nat.le_refl _) fits ?_⟩
      rw [List.take_length, List.drop_length]
      exact .next run
    · refine ⟨false, _, .short (Nat.pos_of_ne_zero full) (by omega) (Nat.le_refl _)
        (.refused ?_ ?_ pieces)⟩
      · simpa using fits
      · rw [room_store, List.length_take]
        omega

/-- However short the writes are, they come to what offering the pieces comes to. -/
theorem streamed_iff : Streamed s pieces whole t ↔ s.offer pieces.flatten = (whole, t) := by
  refine ⟨offer_of_streamed, fun taken => ?_⟩
  obtain ⟨all, u, run⟩ := exists_streamed s pieces
  obtain ⟨rfl, rfl⟩ := Prod.mk.inj ((offer_of_streamed run).symm.trans taken)
  exact run

end Sink

namespace Table

def outcome : Bool → Except WriteFault Unit
  | true => .ok ()
  | false => .error .refused

def pieces (t : Table) (bytes : List UInt8) : List (List UInt8) :=
  bytes.flatMap fun b => [Utf8.encode (t.line b), Utf8.encode "\n"]

theorem writeLines_eq (t : Table) (bytes : List UInt8) (sink : Sink) :
    t.writeLines bytes sink = (sink.offer (t.pieces bytes).flatten).map outcome id := by
  induction bytes generalizing sink with
  | nil => simp [writeLines, pieces, Sink.offer_eq, outcome]
  | cons b bytes ih =>
    have parted : (t.pieces (b :: bytes)).flatten =
        [Utf8.encode (t.line b), Utf8.encode "\n"].flatten ++ (t.pieces bytes).flatten := by
      rw [pieces, List.flatMap_cons, List.flatten_append]
      rfl
    rw [writeLines, Sink.offerAll_eq, parted]
    by_cases fits : [Utf8.encode (t.line b), Utf8.encode "\n"].flatten.length ≤ sink.room
    · rw [Sink.offer_fitting fits, Sink.offer_fitting_append fits]
      exact ih _
    · rw [Sink.offer_overlong_append (Nat.not_le.mp fits), Sink.offer_overlong (Nat.not_le.mp fits)]
      rfl

theorem flatten_pieces (t : Table) (bytes : List UInt8) :
    (t.pieces bytes).flatten = Utf8.encode (String.join (bytes.map fun b => t.line b ++ "\n")) := by
  rw [Utf8.encode_join, pieces, List.flatMap_map]
  induction bytes with
  | nil => rfl
  | cons b bytes ih =>
    rw [List.flatMap_cons, List.flatMap_cons, List.flatten_append, ih, Utf8.encode_append]
    simp

theorem write_eq (t : Table) (n : Nat) :
    t.write (.ofCapacity n) = (outcome (decide ((Utf8.encode t.render).length ≤ n)),
        ⟨n, ((Utf8.encode t.render).take n).toArray⟩) := by
  rw [write, writeLines_eq, flatten_pieces, Sink.offer_ofCapacity]
  rfl

theorem outcome_injective {whole all : Bool}
    (same : outcome whole = outcome all) : whole = all := by
  cases whole <;> cases all <;> first | rfl | cases same

theorem streamed_iff_write (t : Table) {sink after : Sink} {whole : Bool} :
    sink.Streamed (t.pieces allBytes) whole after ↔ t.write sink = (outcome whole, after) := by
  rw [Sink.streamed_iff, write, writeLines_eq]
  constructor
  · intro offered
    rw [offered]
    rfl
  · intro written
    obtain ⟨same, stored⟩ := Prod.mk.inj written
    exact Prod.ext (outcome_injective same) stored

/-- A table written to a sink leaves there the text of the table as far as the sink holds it, and
the writing succeeds exactly when that is all of it. However short the single writes are, it comes
to the same. -/
theorem write_prefix (t : Table) (n : Nat) :
    (t.write (.ofCapacity n)).2.stored.toList =
        (Utf8.encode t.render).take (min n (Utf8.encode t.render).length) ∧
      (t.write (.ofCapacity n)).1 =
        (if (Utf8.encode t.render).length ≤ n then .ok () else .error .refused) ∧
      ∀ whole sink, (Sink.ofCapacity n).Streamed (t.pieces allBytes) whole sink ↔
        t.write (.ofCapacity n) = (outcome whole, sink) := by
  refine ⟨?_, ?_, fun whole sink => t.streamed_iff_write⟩
  · rw [write_eq]
    simp [← List.take_eq_take_min]
  · rw [write_eq]
    split
    · rename_i holds
      rw [decide_eq_true holds]
      rfl
    · rename_i cut
      rw [decide_eq_false cut]
      rfl

end Table
end CharTable
