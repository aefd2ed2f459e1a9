import CharTable.Proofs.Capacity
import CharTable.Proofs.Traverse
import Mathlib.Data.List.Induction

/-!
Which lists of symbols with flags make an encoding. Every flag has to fit the mask, and no flag and
no symbol may come twice; the first entry that what stands before it does not allow is refused, for
its flag before its symbol.
-/
namespace CharTable.Encoding

structure Encodable (mask : UInt8) (entries : List (String × Flag)) : Prop where
  fits : ∀ entry ∈ entries, entry.2.Fits mask
  flags : (entries.map Prod.snd).Nodup
  symbols : (entries.map Prod.fst).Nodup

instance (mask : UInt8) (entries : List (String × Flag)) : Decidable (Encodable mask entries) :=
  decidable_of_iff ((∀ entry ∈ entries, entry.2.Fits mask) ∧ (entries.map Prod.snd).Nodup ∧
    (entries.map Prod.fst).Nodup) ⟨fun ⟨fits, flags, symbols⟩ => ⟨fits, flags, symbols⟩,
    fun fine => ⟨fine.fits, fine.flags, fine.symbols⟩⟩

/-- Why an entry is not allowed behind others. A flag that does not fit comes first, then a flag
that an entry before it owns, then a symbol that an entry before it has. -/
inductive Refused (mask : UInt8) (before : List (String × Flag)) (symbol : String)
    (flag : Flag) : FlagRefusal → Prop
  | misfit (unfit : ¬ flag.Fits mask) : Refused mask before symbol flag (.misfit flag mask)
  | taken {owner : String} (fits : flag.Fits mask) (used : (owner, flag) ∈ before) :
      Refused mask before symbol flag (.taken flag owner)
  | symbolTwice {other : Flag} (fits : flag.Fits mask) (free : ∀ owner, (owner, flag) ∉ before)
      (again : (symbol, other) ∈ before) : Refused mask before symbol flag .symbolTwice

/-- The first entry with which the entries so far are not encodable, and why. -/
def FirstRefused (mask : UInt8) (entries : List (String × Flag)) (symbol : String)
    (reason : FlagRefusal) : Prop :=
  ∃ before flag after, entries = before ++ (symbol, flag) :: after ∧ Encodable mask before ∧
    ¬ Encodable mask (before ++ [(symbol, flag)]) ∧ Refused mask before symbol flag reason

def Maps (e : Encoding) (entries : List (String × Flag)) : Prop :=
  ∀ s flag, e.get? s = some flag ↔ (s, flag) ∈ entries

variable {mask : UInt8} {entries before : List (String × Flag)} {symbol : String} {flag : Flag}
    {reason : FlagRefusal}
  {e : Encoding}

theorem nodup_map_concat {α β : Type} {items : List α} {last : α} {f : α → β} :
    ((items ++ [last]).map f).Nodup ↔ (items.map f).Nodup ∧ ∀ item ∈ items, f item ≠ f last := by
  rw [List.map_append, List.nodup_append]
  simp

namespace Encodable

theorem nil (mask : UInt8) : Encodable mask [] := ⟨by simp, by simp, by simp⟩

theorem concat_iff :
    Encodable mask (before ++ [(symbol, flag)]) ↔
      Encodable mask before ∧ flag.Fits mask ∧ (∀ owner, (owner, flag) ∉ before) ∧
        ∀ other, (symbol, other) ∉ before := by
  constructor
  · rintro ⟨fits, flags, symbols⟩
    obtain ⟨earlierFlags, free⟩ := nodup_map_concat.mp flags
    obtain ⟨earlierSymbols, fresh⟩ := nodup_map_concat.mp symbols
    refine ⟨⟨fun entry listed => fits entry (by simp [listed]), earlierFlags, earlierSymbols⟩,
      ?_, ?_, ?_⟩
    · exact fits (symbol, flag) (by simp)
    · exact fun owner used => free (owner, flag) used rfl
    · exact fun other used => fresh (symbol, other) used rfl
  · rintro ⟨⟨fits, flags, symbols⟩, here, free, fresh⟩
    refine ⟨fun entry listed => ?_, nodup_map_concat.mpr ⟨flags, ?_⟩,
      nodup_map_concat.mpr ⟨symbols, ?_⟩⟩
    · rcases List.mem_append.mp listed with earlier | last
      · exact fits entry earlier
      · rw [List.mem_singleton.mp last]
        exact here
    · rintro ⟨owner, _⟩ used rfl
      exact free owner used
    · rintro ⟨_, other⟩ used rfl
      exact fresh other used

theorem of_append {after : List (String × Flag)}
    (fine : Encodable mask (before ++ after)) : Encodable mask before := by
  obtain ⟨fits, flags, symbols⟩ := fine
  rw [List.map_append] at flags symbols
  exact ⟨fun entry listed => fits entry (by simp [listed]), flags.of_append_left,
    symbols.of_append_left⟩

theorem perm {others : List (String × Flag)} (fine : Encodable mask entries)
    (same : entries.Perm others) : Encodable mask others :=
  ⟨fun entry listed => fine.fits entry (same.mem_iff.mpr listed),
    (same.map _).nodup_iff.mp fine.flags, (same.map _).nodup_iff.mp fine.symbols⟩

/-- An entry is refused exactly when the entries before it are not encodable with it. -/
theorem refused_iff (fine : Encodable mask before) :
    (∃ reason, Refused mask before symbol flag reason) ↔
      ¬ Encodable mask (before ++ [(symbol, flag)]) := by
  constructor
  · rintro ⟨reason, refused⟩ whole
    obtain ⟨_, fits, free, fresh⟩ := concat_iff.mp whole
    cases refused with
    | misfit unfit => exact unfit fits
    | taken _ used => exact free _ used
    | symbolTwice _ _ again => exact fresh _ again
  · intro broken
    by_cases fits : flag.Fits mask
    · by_cases used : ∃ owner, (owner, flag) ∈ before
      · obtain ⟨owner, used⟩ := used
        exact ⟨_, .taken fits used⟩
      · by_cases again : ∃ other, (symbol, other) ∈ before
        · obtain ⟨other, again⟩ := again
          exact ⟨_, .symbolTwice fits (not_exists.mp used) again⟩
        · exact absurd (concat_iff.mpr ⟨fine, fits, not_exists.mp used, not_exists.mp again⟩) broken
    · exact ⟨_, .misfit fits⟩

/-- Entries that are not all allowed have a first one that is refused. -/
theorem or_firstRefused (mask : UInt8) (entries : List (String × Flag)) :
    Encodable mask entries ∨ ∃ symbol reason, FirstRefused mask entries symbol reason := by
  induction entries using List.reverseRecOn with
  | nil => exact Or.inl (nil mask)
  | append_singleton entries entry ih =>
    obtain ⟨symbol, flag⟩ := entry
    rcases ih with fine | ⟨earlier, reason, before, other, after, rfl, rest⟩
    · by_cases whole : Encodable mask (entries ++ [(symbol, flag)])
      · exact Or.inl whole
      · obtain ⟨reason, refused⟩ := fine.refused_iff.mpr whole
        exact Or.inr ⟨symbol, reason, entries, flag, [], rfl, fine, whole, refused⟩
    · exact Or.inr ⟨earlier, reason, before, other, after ++ [(symbol, flag)], by simp, rest⟩

end Encodable

namespace Draft

variable {d : Draft}

/-- Symbols lead to flags, and flags to the symbols that own them, by these entries and no
others. -/
structure Holds (d : Draft) (entries : List (String × Flag)) : Prop where
  mapped : ∀ s f, d.bySymbol[s]? = some f ↔ (s, f) ∈ entries
  owner : ∀ s f, d.owners.get? f = some s ↔ (s, f) ∈ entries

theorem holds_empty (mask : UInt8) : (empty mask).Holds [] := ⟨by simp [empty], by simp [empty]⟩

theorem Holds.owner_eq_none (holds : d.Holds before) (free : ∀ owner, (owner, flag) ∉ before) :
    d.owners.get? flag = none := by
  apply Option.eq_none_iff_forall_ne_some.mpr
  intro owner found
  exact free owner ((holds.owner owner flag).mp found)

theorem Holds.contains_iff (holds : d.Holds before) :
    d.bySymbol.contains symbol = true ↔ ∃ other, (symbol, other) ∈ before := by
  rw [Std.TreeMap.contains_eq_isSome_getElem?, Option.isSome_iff_exists]
  exact exists_congr fun other => holds.mapped symbol other

theorem Holds.snoc {after : Draft} (holds : d.Holds before) (free : ∀ owner, (owner, flag) ∉ before)
    (fresh : ∀ other, (symbol, other) ∉ before)
    (symbols : after.bySymbol = d.bySymbol.insert symbol flag)
    (owners : after.owners = d.owners.insert symbol flag) :
    after.Holds (before ++ [(symbol, flag)]) := by
  constructor
  · intro s f
    rw [symbols, Std.TreeMap.getElem?_insert, List.mem_append, List.mem_singleton, Prod.mk.injEq]
    by_cases same : symbol = s
    · subst same
      simp [fresh, eq_comm]
    · have apart : compare symbol s ≠ .eq := fun equal => same (Std.LawfulEqCmp.eq_of_compare equal)
      rw [if_neg apart, holds.mapped]
      simp [Ne.symm same]
  · intro s f
    rw [owners, Owners.get?_insert, List.mem_append, List.mem_singleton, Prod.mk.injEq]
    by_cases same : flag = f
    · subst same
      simp [free, eq_comm]
    · rw [if_neg same, holds.owner]
      simp [Ne.symm same]

theorem add_eq_ok (holds : d.Holds before) (fits : flag.Fits d.mask)
    (free : ∀ owner, (owner, flag) ∉ before) (fresh : ∀ other, (symbol, other) ∉ before) :
    ∃ after, d.add symbol flag = .ok after ∧ after.Holds (before ++ [(symbol, flag)]) := by
  have unseen : ¬ d.bySymbol.contains symbol = true := by
    rw [holds.contains_iff]
    rintro ⟨other, listed⟩
    exact fresh other listed
  unfold add
  rw [dif_pos (Flag.allowed_iff_fits.mpr fits)]
  split
  · rename_i found
    rw [holds.owner_eq_none free] at found
    cases found
  · rw [if_neg unseen]
    exact ⟨_, rfl, holds.snoc free fresh rfl rfl⟩

theorem add_eq_error (holds : d.Holds before) (refused : Refused d.mask before symbol flag reason) :
    d.add symbol flag = .error reason := by
  unfold add
  cases refused with
  | misfit unfit => rw [dif_neg (mt Flag.allowed_iff_fits.mp unfit)]
  | @taken owner fits used =>
    rw [dif_pos (Flag.allowed_iff_fits.mpr fits)]
    have found := (holds.owner owner flag).mpr used
    split
    · rename_i other
      rw [Option.some.inj (other.symm.trans found)]
    · rename_i missing
      cases missing.symm.trans found
  | symbolTwice fits free again =>
    rw [dif_pos (Flag.allowed_iff_fits.mpr fits)]
    split
    · rename_i found
      rw [holds.owner_eq_none free] at found
      cases found
    · rw [if_pos (holds.contains_iff.mpr ⟨_, again⟩)]

/-- Entries that are encodable behind those already taken are taken in turn, whatever follows. -/
theorem addAll_append (holds : d.Holds before) (fine : Encodable d.mask (before ++ entries))
    (rest : List (String × Flag)) :
    ∃ after : Draft, d.addAll (entries ++ rest) = after.addAll rest ∧ after.mask = d.mask ∧
      after.Holds (before ++ entries) := by
  induction entries generalizing d before with
  | nil => exact ⟨d, rfl, rfl, by rwa [List.append_nil]⟩
  | cons entry entries ih =>
    obtain ⟨symbol, flag⟩ := entry
    rw [List.append_cons] at fine
    obtain ⟨_, fits, free, fresh⟩ := Encodable.concat_iff.mp fine.of_append
    obtain ⟨next, added, holding⟩ := add_eq_ok holds fits free fresh
    have mask := mask_of_add added
    obtain ⟨after, runs, masks, all⟩ := ih holding (mask ▸ fine)
    refine ⟨after, ?_, masks.trans mask, by rwa [List.append_cons]⟩
    rw [List.cons_append, addAll, added]
    exact runs

end Draft

/-- Entries that are all allowed make an encoding that maps by them. -/
theorem ofEntries_of_encodable (fine : Encodable mask entries) :
    ∃ e, ofEntries mask entries = .ok e ∧ e.Maps entries := by
  obtain ⟨d, runs, _, holds⟩ := Draft.addAll_append (Draft.holds_empty mask) fine []
  rw [List.append_nil] at runs
  refine ⟨d.encoding, ?_, holds.mapped⟩
  rw [ofEntries, runs]
  rfl

/-- The first entry that is refused decides the fault. -/
theorem ofEntries_of_firstRefused (first : FirstRefused mask entries symbol reason) :
    ofEntries mask entries = .error (.invalidEncoding symbol reason.message) := by
  obtain ⟨before, flag, after, rfl, fine, _, refused⟩ := first
  obtain ⟨d, runs, masks, holds⟩ :=
    Draft.addAll_append (Draft.holds_empty mask) fine ((symbol, flag) :: after)
  have here : Refused d.mask before symbol flag reason := masks ▸ refused
  rw [ofEntries, runs, Draft.addAll, Draft.add_eq_error holds here]
  rfl

theorem encodable_of_ofEntries (encoded : ofEntries mask entries = .ok e) :
    Encodable mask entries ∧ e.Maps entries := by
  rcases Encodable.or_firstRefused mask entries with fine | ⟨symbol, reason, first⟩
  · obtain ⟨after, encodes, mapped⟩ := ofEntries_of_encodable fine
    cases encoded.symm.trans encodes
    exact ⟨fine, mapped⟩
  · cases encoded.symm.trans (ofEntries_of_firstRefused first)

theorem exists_ofEntries_iff : (∃ e, ofEntries mask entries = .ok e) ↔ Encodable mask entries := by
  constructor
  · rintro ⟨e, encoded⟩
    exact (encodable_of_ofEntries encoded).1
  · intro fine
    obtain ⟨e, encoded, _⟩ := ofEntries_of_encodable fine
    exact ⟨e, encoded⟩

theorem ofEntries_eq_error_iff {fault : Fault} :
    ofEntries mask entries = .error fault ↔
      ∃ symbol reason, FirstRefused mask entries symbol reason ∧
        fault = .invalidEncoding symbol reason.message := by
  constructor
  · intro failed
    rcases Encodable.or_firstRefused mask entries with fine | ⟨symbol, reason, first⟩
    · obtain ⟨e, encoded, _⟩ := ofEntries_of_encodable fine
      cases encoded.symm.trans failed
    · exact ⟨symbol, reason, first,
        Except.error.inj (failed.symm.trans (ofEntries_of_firstRefused first))⟩
  · rintro ⟨symbol, reason, first, rfl⟩
    exact ofEntries_of_firstRefused first

theorem value_ne_of_get? {s u : String} {f g : Flag} (first : e.get? s = some f)
    (second : e.get? u = some g) (apart : s ≠ u) : f.value ≠ g.value := by
  intro same
  have flags := (fits_of_get? first).value_injective (fits_of_get? second) same
  exact apart (get?_injective first (flags ▸ second))

/-- A list of symbols with flags is accepted exactly when every flag fits the mask and no flag and
no symbol comes twice, in whatever order they stand. The encoding then maps each symbol to its flag,
different symbols to flags of different values, and there are at most so many as the mask leaves
room for. Otherwise the first entry that is not allowed behind those before it is refused, for its
flag before its symbol. -/
theorem ofEntries_outcome (mask : UInt8) (entries : List (String × Flag)) :
    ((∃ e, ofEntries mask entries = .ok e) ↔ Encodable mask entries) ∧
      (∀ e, ofEntries mask entries = .ok e →
        e.mask = mask ∧ (∀ s f, e.get? s = some f ↔ (s, f) ∈ entries) ∧
          (∀ s u f g, e.get? s = some f → e.get? u = some g → s ≠ u → f.value ≠ g.value) ∧
          entries.length ≤ (2 ^ (Flag.setBits mask).card - 1) + (8 - (Flag.setBits mask).card) ∧
          ∀ others, entries.Perm others →
            ∃ other, ofEntries mask others = .ok other ∧ other.get? = e.get?) ∧
      ∀ fault, ofEntries mask entries = .error fault ↔
        ∃ symbol reason, FirstRefused mask entries symbol reason ∧
          fault = .invalidEncoding symbol reason.message := by
  refine ⟨exists_ofEntries_iff, fun e encoded => ?_, fun fault => ofEntries_eq_error_iff⟩
  obtain ⟨fine, mapped⟩ := encodable_of_ofEntries encoded
  refine ⟨mask_of_ofEntries encoded, mapped, fun _ _ _ _ => value_ne_of_get?, ?_,
    fun others same => ?_⟩
  · have fit : ∀ flag ∈ entries.map Prod.snd, flag.Fits mask := by
      intro flag listed
      obtain ⟨entry, member, rfl⟩ := List.mem_map.mp listed
      exact fine.fits entry member
    simpa using Flag.length_le_of_fit fit fine.flags
  · obtain ⟨other, encodes⟩ := exists_ofEntries_iff.mpr (fine.perm same)
    obtain ⟨_, maps⟩ := encodable_of_ofEntries encodes
    refine ⟨other, encodes, funext fun s => Option.ext fun f => ?_⟩
    rw [maps, mapped, same.mem_iff]

def crowdedFlags : List (String × Flag) :=
  [("LOW", .ofClass 1), ("HIGH", .ofClass 128), ("BOTH", .ofClass 129), ("B", .bit 2),
    ("C", .bit 4), ("D", .bit 8), ("E", .bit 16), ("F", .bit 32), ("G", .bit 64)]

theorem ofEntries_crowded :
    ∃ e, ofEntries 129 crowdedFlags = .ok e ∧ e.get? "BOTH" = some (.ofClass 129) ∧
      crowdedFlags.length = (2 ^ (Flag.setBits 129).card - 1) + (8 - (Flag.setBits 129).card) ∧
      ofEntries 129 (crowdedFlags ++ [("LOW", .bit 64)]) =
          .error (.invalidEncoding "LOW" "bit 0x40 already used by `G`") := by
  obtain ⟨accepts, mapping, _⟩ := ofEntries_outcome 129 crowdedFlags
  obtain ⟨e, encoded⟩ := accepts.mpr (by decide)
  obtain ⟨_, mapped, _⟩ := mapping e encoded
  obtain ⟨_, _, fails⟩ := ofEntries_outcome 129 (crowdedFlags ++ [("LOW", .bit 64)])
  have refused : Refused 129 crowdedFlags "LOW" (.bit 64) (.taken (.bit 64) "G") :=
    .taken (by decide) (by decide)
  have reason : (FlagRefusal.taken (.bit 64) "G").message = "bit 0x40 already used by `G`" := by
    decide
  refine ⟨e, encoded, (mapped _ _).mpr (by decide), by decide, ?_⟩
  rw [fails]
  exact ⟨"LOW", _, ⟨crowdedFlags, _, [], rfl, by decide, by decide, refused⟩, by rw [reason]⟩

end CharTable.Encoding
