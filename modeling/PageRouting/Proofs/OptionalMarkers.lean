import PageRouting.Proofs.Naming

/-!
# `PageRouting/Proofs/OptionalMarkers.lean` — which tokens lose their question mark

Each index route of a level has its say on every pattern of the level: it takes the first question mark from the token that is
as far from the start as its own `index` is from the anchor, if the route's name agrees with its name up to there. All of them
together take from each token as many question marks as there are index routes that ask for that token
(`IndexName.Asks`, `Collapse.resolveOptional_eq`).

The anchor is the least position of `index` among these names, so that the distance from it is never negative.
-/

set_option autoImplicit false

namespace PageRouting

/-! ## Question marks taken one by one -/

/-- The text without the first occurrences of a character, as many as are asked for. -/
def Text.eraseFirst (c : Char) : Nat → Text → Text
  | 0, t => t
  | _ + 1, [] => []
  | count + 1, a :: t => if a = c then eraseFirst c count t else a :: eraseFirst c (count + 1) t

theorem Text.eraseFirst_zero (c : Char) (t : Text) : eraseFirst c 0 t = t := by
  cases t <;> rfl

theorem Text.eraseFirst_erase (c : Char) (count : Nat) (t : Text) :
    eraseFirst c count (t.erase c) = eraseFirst c (count + 1) t := by
  induction t with
  | nil => cases count <;> rfl
  | cons a t ih =>
    by_cases ha : a = c
    · rw [ha, List.erase_cons_head, eraseFirst, if_pos rfl]
    · rw [List.erase_cons_tail (by simpa using ha), eraseFirst, if_neg ha, ← ih]
      cases count with
      | zero => rw [eraseFirst_zero, eraseFirst_zero]
      | succ count => rw [eraseFirst, if_neg ha]

/-- Steps that each concern one place of a list do to every place what those that concern it do, in whatever order. -/
theorem foldl_modify_erase {σ : Type} (c : Char) (place : σ → Nat) (applies : σ → Prop) [DecidablePred applies]
    (steps : List σ) (tokens : List Text) :
    steps.foldl (fun tokens step => if applies step then tokens.modify (place step) (·.erase c) else tokens) tokens =
      tokens.mapIdx fun k token => Text.eraseFirst c (steps.countP fun step => applies step ∧ place step = k) token := by
  induction steps generalizing tokens with
  | nil =>
    apply List.ext_getElem?
    intro k
    simp [Text.eraseFirst_zero]
  | cons step steps ih =>
    rw [List.foldl_cons, ih]
    apply List.ext_getElem?
    intro k
    rw [List.getElem?_mapIdx, List.getElem?_mapIdx, List.countP_cons]
    by_cases happlies : applies step
    · rw [if_pos happlies, List.getElem?_modify]
      by_cases hplace : place step = k
      · cases tokens[k]? <;> simp [happlies, hplace, Text.eraseFirst_erase]
      · simp [happlies, hplace]
    · simp [happlies]

namespace IndexName

/-- The anchor of the index names on a level: the least position of `index` among them, or -1 if there are none. -/
def anchor (indexes : List IndexName) : Int :=
  match anchor? indexes with
  | some least => least
  | none => -1

/--
Does an index route ask for the token at an offset of a route whose name has the given parts? Its `index` is as far from the
anchor, and the parts before the offset are the same in both names.
-/
def Asks (anchor : Int) (nameParts : List Text) (offset : Nat) (index : IndexName) : Prop :=
  (index.position : Int) - anchor = offset ∧ offset ≤ nameParts.length ∧
    ∀ a < offset, nameParts[a]? = index.parts[a]?

instance (anchor : Int) (nameParts : List Text) (offset : Nat) : DecidablePred (Asks anchor nameParts offset) :=
  fun _ => inferInstanceAs (Decidable (_ ∧ _ ∧ _))

theorem anchor?_le {indexes : List IndexName} {least : Nat} (h : anchor? indexes = some least) :
    ∀ index ∈ indexes, least ≤ index.position := by
  rw [anchor?_eq_min?, List.min?_eq_some_iff] at h
  exact fun index hm => h.2 index.position (List.mem_map_of_mem hm)

theorem anchor_le (indexes : List IndexName) : ∀ index ∈ indexes, anchor indexes ≤ index.position := by
  intro index hm
  unfold anchor
  cases h : anchor? indexes with
  | none => exact Int.le_trans (by decide) (Int.natCast_nonneg _)
  | some least => exact Int.ofNat_le.mpr (anchor?_le h index hm)

/-- An index name is read with the place of its first part `index`. -/
theorem position_of_ofName {name : Text} {index : IndexName} (h : ofName name = .ok index) :
    index.parts = Text.split '-' name ∧ index.parts[index.position]? = some Segment.indexKey ∧
      ∀ a < index.position, index.parts[a]? ≠ some Segment.indexKey := by
  unfold ofName at h
  dsimp only at h
  split at h
  · next position hposition =>
    obtain rfl := Except.ok.inj h
    obtain ⟨hlt, hkey, hbefore⟩ := List.findIdx?_eq_some_iff_getElem.mp hposition
    refine ⟨rfl, ?_, fun a ha he => ?_⟩
    · rw [List.getElem?_eq_getElem hlt]
      exact congrArg some (of_decide_eq_true hkey)
    · obtain ⟨_, hpart⟩ := List.getElem?_eq_some_iff.mp he
      exact hbefore a ha (decide_eq_true hpart)
  · cases h

theorem position_of_ofNames {names : List (Option Text)} {indexes : List IndexName} (h : ofNames names = .ok indexes) :
    ∀ index ∈ indexes, index.parts[index.position]? = some Segment.indexKey ∧
      ∀ a < index.position, index.parts[a]? ≠ some Segment.indexKey := by
  rw [ofNames_eq_mapM] at h
  intro index hm
  obtain ⟨name, -, hname⟩ := (mem_iff_of_mapM_eq_ok h).mp hm
  exact (position_of_ofName hname).2

end IndexName

theorem take_prefix_iff {parts names : List Text} {k : Nat} (hk : k ≤ parts.length) :
    parts.take k <+: names ↔ k ≤ names.length ∧ ∀ a < k, names[a]? = parts[a]? := by
  have hlength : (parts.take k).length = k := List.length_take_of_le hk
  constructor
  · rintro ⟨rest, rfl⟩
    refine ⟨by simp [hlength], fun a ha => ?_⟩
    rw [List.getElem?_append_left (by omega), List.getElem?_take_of_lt ha]
  · rintro ⟨-, hsame⟩
    rw [List.prefix_iff_eq_take, hlength]
    apply List.ext_getElem?
    intro a
    by_cases ha : a < k
    · rw [List.getElem?_take_of_lt ha, List.getElem?_take_of_lt ha, hsame a ha]
    · rw [List.getElem?_take_eq_none (by omega), List.getElem?_take_eq_none (by omega)]

namespace Collapse

/-! ## All index routes of a level -/

theorem requireAll_eq_mapIdx {indexes : List IndexName} {least : Nat} (h : IndexName.anchor? indexes = some least)
    (parts tokens : List Text) : requireAll indexes parts tokens =
      tokens.mapIdx fun k token => Text.eraseFirst '?'
        (indexes.countP fun index => index.parts.take (index.position - least) <+: parts ∧ index.position - least = k) token := by
  unfold requireAll
  rw [h]
  exact foldl_modify_erase '?' (fun index : IndexName => index.position - least)
    (fun index => index.parts.take (index.position - least) <+: parts) indexes tokens

theorem asks_iff {least k : Nat} {parts : List Text} {index : IndexName} (hle : least ≤ index.position)
    (hin : index.position < index.parts.length) :
    index.Asks least parts k ↔ index.parts.take (index.position - least) <+: parts ∧ index.position - least = k := by
  have hoffset : (index.position : Int) - least = k ↔ index.position - least = k := by omega
  rw [IndexName.Asks, hoffset, and_comm]
  refine and_congr_left fun hk => ?_
  rw [hk, take_prefix_iff (by omega)]

theorem requireAll_eq {names : List (Option Text)} {indexes : List IndexName} (h : IndexName.ofNames names = .ok indexes)
    (parts tokens : List Text) : requireAll indexes parts tokens =
      tokens.mapIdx fun k token =>
        Text.eraseFirst '?' (indexes.countP fun index => index.Asks (IndexName.anchor indexes) parts k) token := by
  cases hanchor : IndexName.anchor? indexes with
  | none =>
    obtain rfl := IndexName.eq_nil_of_anchor? hanchor
    apply List.ext_getElem?
    intro k
    simp [requireAll, IndexName.anchor?, Text.eraseFirst_zero]
  | some least =>
    have hleast : IndexName.anchor indexes = least := by rw [IndexName.anchor, hanchor]
    have hcount : ∀ k : Nat, (indexes.countP fun index =>
        index.parts.take (index.position - least) <+: parts ∧ index.position - least = k) =
          indexes.countP fun index => index.Asks (IndexName.anchor indexes) parts k := by
      intro k
      refine List.countP_congr fun index hm => ?_
      have hin := (List.getElem?_eq_some_iff.mp (IndexName.position_of_ofNames h index hm).1).1
      rw [decide_eq_true_iff, decide_eq_true_iff, hleast, asks_iff (IndexName.anchor?_le hanchor index hm) hin]
    rw [requireAll_eq_mapIdx hanchor]
    simp only [hcount]

/--
**Each token loses as many question marks as there are index routes that ask for it.** Of the index names that the pass finds
on a level, each has its `index` where it says, no nearer to the start than the anchor; and a pattern comes out with the tokens
that it went in with, each without its first question marks, one for each index route that asks.
-/
theorem resolveOptional_eq (siblings : Forest) (indexes : List IndexName)
    (h : IndexName.ofNames (siblings.map Route.name) = .ok indexes) (isChild : Bool) (route : Route) :
    let anchor := IndexName.anchor indexes
    let tokens := if isChild then Text.split '/' route.path else (Text.split '/' route.path).tail
    resolveOptional indexes isChild route.name route.path =
        (if isChild then [] else ['/']) ++ Text.join '/' (tokens.mapIdx fun k token =>
          Text.eraseFirst '?' (indexes.countP fun index => index.Asks anchor (nameParts route.name) k) token) ∧
      ∀ index ∈ indexes, 0 ≤ (index.position : Int) - anchor ∧
        index.parts[index.position]? = some Segment.indexKey ∧
        ∀ a < index.position, index.parts[a]? ≠ some Segment.indexKey := by
  intro anchor tokens
  refine ⟨?_, fun index hm => ⟨?_, IndexName.position_of_ofNames h index hm⟩⟩
  · unfold resolveOptional
    rw [requireAll_eq h, requireAll_eq h]
    cases isChild <;> rfl
  · exact Int.sub_nonneg_of_le (IndexName.anchor_le indexes index hm)

/-- A pattern whose route is named like the directory of one index page, and one that is not; the other index page is above both. -/
theorem resolveOptional_eq_deeper :
    let names := ["index", "a-index", "a-id", "b-id"].map fun name => some name.toList
    let siblings : Forest := names.map fun name => { name, path := "/:x?/:id?".toList }
    ∃ indexes, IndexName.ofNames (siblings.map Route.name) = .ok indexes ∧ IndexName.anchor indexes = 0 ∧
      indexes.map IndexName.parts = [["index".toList], ["a".toList, "index".toList]] ∧
      siblings.map (fun route => resolveOptional indexes false route.name route.path) =
        ["/:x/:id?".toList, "/:x/:id".toList, "/:x/:id".toList, "/:x/:id?".toList] ∧
      ∀ route ∈ siblings, resolveOptional indexes false route.name route.path =
        '/' :: Text.join '/' ([":x?".toList, ":id?".toList].mapIdx fun k token =>
          Text.eraseFirst '?' (indexes.countP fun index => index.Asks 0 (nameParts route.name) k) token) := by
  intro names siblings
  refine ⟨[⟨["index".toList], 0⟩, ⟨["a".toList, "index".toList], 1⟩], by decide, by decide, by decide, by decide, ?_⟩
  intro route hm
  obtain ⟨name, -, rfl⟩ := List.mem_map.mp hm
  exact (resolveOptional_eq siblings _ (by decide) false { name, path := "/:x?/:id?".toList }).1

end Collapse

end PageRouting
