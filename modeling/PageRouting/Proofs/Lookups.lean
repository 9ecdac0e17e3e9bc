import PageRouting.Proofs.Collapsing
import PageRouting.Proofs.OptionalMarkers

/-!
# `PageRouting/Proofs/Lookups.lean` — a collapse pass with its lookups checked

The collapse pass is written with operations that cannot fail: a prefix of a list is compared, a token is changed where there is
one. Read position by position, it looks into three lists at once, the parts of a route's name, those of an index name and the
tokens of a pattern, and each look could be behind an end; the place of `index` in an index name is looked up again for every
pattern. Here stands the pass that does all this and gives up at a lookup that fails (`Forest.collapseChecked`).

It never gives up, and it is the same pass (`Forest.collapseChecked_eq`). The guards of the loop keep the looks into a pattern and
a route's name inside. The others are inside because an index name is read with a part `index`, and the anchor is not behind it.
-/

set_option autoImplicit false

namespace PageRouting

namespace Collapse

/-! ## One index route -/

/--
The comparison of a route's name with an index name from a position on. As many positions as remain are compared, up to the first
difference or the end of the route's name; the token behind them loses its first question mark.
-/
def requireFrom (nameParts indexParts tokens : List Text) (position : Nat) : (remaining : Nat) → Option (List Text)
  | 0 => do
    let token ← tokens[position]?
    some (tokens.set position (token.erase '?'))
  | remaining + 1 =>
    if nameParts.length ≤ position then some tokens
    else do
      let own ← nameParts[position]?
      let other ← indexParts[position]?
      if own = other then requireFrom nameParts indexParts tokens (position + 1) remaining else some tokens

/-- One index route's say on a pattern, by the parts of its name. -/
def requireAtChecked (anchor : Int) (nameParts indexParts tokens : List Text) : Option (List Text) := do
  let index ← indexParts.findIdx? (· = Segment.indexKey)
  let offset : Int := index - anchor
  if (tokens.length : Int) ≤ offset ∨ offset < 0 then some tokens
  else requireFrom nameParts indexParts tokens 0 offset.toNat

/-- The comparison does not look behind an end if the offset is inside the index name and inside the pattern. -/
theorem requireFrom_eq {indexParts tokens : List Text} (nameParts : List Text) {position remaining : Nat}
    (hindex : position + remaining ≤ indexParts.length) (htokens : position + remaining < tokens.length) :
    requireFrom nameParts indexParts tokens position remaining =
      some (if (indexParts.drop position).take remaining <+: nameParts.drop position
        then tokens.modify (position + remaining) (·.erase '?') else tokens) := by
  induction remaining generalizing position with
  | zero =>
    rw [Nat.add_zero] at htokens ⊢
    rw [requireFrom, List.getElem?_eq_getElem htokens, if_pos (by simp), List.modify_eq_set, List.getElem?_eq_getElem htokens]
    rfl
  | succ remaining ih =>
    have hother : position < indexParts.length := by omega
    rw [requireFrom]
    by_cases hown : nameParts.length ≤ position
    · rw [if_pos hown, List.drop_eq_nil_of_le hown, List.drop_eq_getElem_cons hother, List.take_succ_cons, if_neg (by simp)]
    · have hown : position < nameParts.length := by omega
      rw [if_neg (by omega), List.getElem?_eq_getElem hown, List.getElem?_eq_getElem hother, List.drop_eq_getElem_cons hother,
        List.drop_eq_getElem_cons hown, List.take_succ_cons]
      simp only [Option.bind_eq_bind, Option.bind_some, List.cons_prefix_cons]
      by_cases hsame : nameParts[position] = indexParts[position]
      · rw [if_pos hsame, ih (by omega) (by omega)]
        simp only [hsame, true_and, Nat.add_assoc, Nat.add_comm 1]
      · rw [if_neg hsame, if_neg fun h => hsame h.1.symm]

/-- Of an index name that has been read, the place of `index` is found again, and it is not in front of the anchor. -/
theorem requireAtChecked_eq {index : IndexName} {anchor : Nat} (hanchor : anchor ≤ index.position)
    (hposition : index.parts.findIdx? (· = Segment.indexKey) = some index.position) (nameParts tokens : List Text) :
    requireAtChecked anchor nameParts index.parts tokens = some (requireAt anchor nameParts index tokens) := by
  have hin : index.position < index.parts.length := (List.findIdx?_eq_some_iff_getElem.mp hposition).1
  have hoffset : (index.position : Int) - anchor = (index.position - anchor : Nat) := by omega
  rw [requireAtChecked, hposition]
  simp only [Option.bind_eq_bind, Option.bind_some, hoffset, requireAt]
  by_cases htokens : tokens.length ≤ index.position - anchor
  · rw [if_pos (by omega), List.modify_eq_self htokens]
    simp
  · rw [if_neg (by omega), Int.toNat_natCast, requireFrom_eq nameParts (by omega) (by omega)]
    simp

/-! ## A level -/

/-- Every index route of a level has its say on a pattern, in their order. -/
def requireAllChecked (anchor : Int) (indexNames : List (List Text)) (nameParts tokens : List Text) : Option (List Text) :=
  indexNames.foldlM (fun tokens indexParts => requireAtChecked anchor nameParts indexParts tokens) tokens

/-- A pattern with its parameters required where the index routes of its level say so. -/
def resolveOptionalChecked (anchor : Int) (indexNames : List (List Text)) (isChild : Bool) (name : Option Text) (path : Text) :
    Option Text := do
  let tokens := Text.split '/' path
  if isChild then
    let tokens ← requireAllChecked anchor indexNames (nameParts name) tokens
    some (Text.join '/' tokens)
  else
    let tokens ← tokens.tail?
    let tokens ← requireAllChecked anchor indexNames (nameParts name) tokens
    some ('/' :: Text.join '/' tokens)

/-- The index names of a level, each with its first part `index` where it says. -/
def AreRead (indexes : List IndexName) : Prop :=
  ∀ index ∈ indexes, index.parts.findIdx? (· = Segment.indexKey) = some index.position

theorem areRead_of_ofNames {names : List (Option Text)} {indexes : List IndexName} (h : IndexName.ofNames names = .ok indexes) :
    AreRead indexes := by
  rw [IndexName.ofNames_eq_mapM] at h
  intro index hm
  obtain ⟨name, -, hname⟩ := (mem_iff_of_mapM_eq_ok h).mp hm
  unfold IndexName.ofName at hname
  dsimp only at hname
  split at hname
  · next position hposition =>
    obtain rfl := Except.ok.inj hname
    exact hposition
  · cases hname

variable {indexes : List IndexName}

theorem requireAllChecked_eq (h : AreRead indexes) (nameParts tokens : List Text) :
    requireAllChecked (IndexName.anchor indexes) (indexes.map IndexName.parts) nameParts tokens =
      some (requireAll indexes nameParts tokens) := by
  unfold IndexName.anchor requireAll requireAllChecked
  cases hanchor : IndexName.anchor? indexes with
  | none =>
    rw [IndexName.eq_nil_of_anchor? hanchor]
    rfl
  | some least =>
    dsimp only
    have hle := IndexName.anchor?_le hanchor
    clear hanchor
    -- the anchor is that of all index names, so it stays as it is while they are taken one by one
    induction indexes generalizing tokens with
    | nil => rfl
    | cons index others ih =>
      obtain ⟨hposition, hothers⟩ := List.forall_mem_cons.mp h
      obtain ⟨hleast, hleastOthers⟩ := List.forall_mem_cons.mp hle
      rw [List.map_cons, List.foldlM_cons, requireAtChecked_eq hleast hposition]
      exact ih hothers _ hleastOthers

/-- **No look into a list fails on a level.** -/
theorem resolveOptionalChecked_eq (h : AreRead indexes) (isChild : Bool) (name : Option Text) (path : Text) :
    resolveOptionalChecked (IndexName.anchor indexes) (indexes.map IndexName.parts) isChild name path =
      some (resolveOptional indexes isChild name path) := by
  unfold resolveOptionalChecked resolveOptional
  cases isChild with
  | true => simp [requireAllChecked_eq h]
  | false =>
    obtain ⟨first, others, hsplit⟩ := List.exists_cons_of_ne_nil (Text.split_ne_nil '/' path)
    simp [hsplit, requireAllChecked_eq h]

/-- The pattern of a route after the pass. -/
def newPathChecked (indexes : List IndexName) (isChild : Bool) (name : Option Text) (path : Text) : Option Text :=
  let path := if isChild then path.erase '/' else path
  if '?' ∈ path then
    resolveOptionalChecked (IndexName.anchor indexes) (indexes.map IndexName.parts) isChild name path
  else some path

theorem newPathChecked_eq (h : AreRead indexes) (isChild : Bool) (name : Option Text) (path : Text) :
    newPathChecked indexes isChild name path = some (newPath indexes isChild name path) := by
  unfold newPathChecked newPath
  dsimp only
  rw [resolveOptionalChecked_eq h]
  exact (apply_ite some _ _ _).symm

/-! ## All levels -/

mutual

/-- The pass on one route, given the index names among its siblings, and on everything below it. -/
def routeChecked (indexes : List IndexName) (isChild : Bool) : Route → Option (Collapsed Route)
  | ⟨name, path, component, chunkName, children⟩ => do
    let path ← newPathChecked indexes isChild name path
    let stripped := name.map IndexName.strip
    let shown := showsParent children
    let notices := if shown then [.unnamed stripped path] else []
    let name := if shown then none else stripped
    match IndexName.ofNames (children.map Route.name) with
    | .error fault => some ⟨⟨name, path, component, chunkName, children⟩, notices, some fault⟩
    | .ok below =>
      let inner ← siblingsChecked below true children
      some ⟨⟨name, path, component, chunkName, inner.value⟩, notices ++ inner.notices, inner.fault⟩

/-- The pass on siblings whose index names are given, up to the first fault. -/
def siblingsChecked (indexes : List IndexName) (isChild : Bool) : List Route → Option (Collapsed Forest)
  | [] => some ⟨[], [], none⟩
  | first :: others => do
    let head ← routeChecked indexes isChild first
    match head.fault with
    | some fault => some ⟨head.value :: others, head.notices, some fault⟩
    | none =>
      let tail ← siblingsChecked indexes isChild others
      some ⟨head.value :: tail.value, head.notices ++ tail.notices, tail.fault⟩

end

/-- Siblings go through if each of them does. -/
theorem siblingsChecked_eq {isChild : Bool} {forest : Forest}
    (h : ∀ route ∈ forest, routeChecked indexes isChild route = some (Collapse.route indexes isChild route)) :
    siblingsChecked indexes isChild forest = some (siblings indexes isChild forest) := by
  induction forest with
  | nil => rfl
  | cons first others ih =>
    obtain ⟨hfirst, hothers⟩ := List.forall_mem_cons.mp h
    rw [siblingsChecked, siblings, hfirst]
    simp only [Option.bind_eq_bind, Option.bind_some]
    cases (Collapse.route indexes isChild first).fault with
    | some fault => rfl
    | none =>
      dsimp only
      rw [ih hothers]
      rfl

theorem routeChecked_eq (h : AreRead indexes) (isChild : Bool) (route : Route) :
    routeChecked indexes isChild route = some (Collapse.route indexes isChild route) := by
  induction route using Route.induct generalizing indexes isChild with
  | step route ih =>
    obtain ⟨name, path, component, chunkName, children⟩ := route
    rw [routeChecked, Collapse.route, newPathChecked_eq h]
    simp only [Option.bind_eq_bind, Option.bind_some]
    cases hbelow : IndexName.ofNames (children.map Route.name) with
    | error fault => rfl
    | ok below =>
      dsimp only
      rw [siblingsChecked_eq fun child hm => ih child hm (areRead_of_ofNames hbelow) true]
      rfl

end Collapse

/-- The collapse pass with its lookups checked. -/
def Forest.collapseChecked (isChild : Bool) (forest : Forest) : Option (Collapsed Forest) :=
  match IndexName.ofNames (forest.map Route.name) with
  | .error fault => some ⟨forest, [], some fault⟩
  | .ok indexes => Collapse.siblingsChecked indexes isChild forest

/-- **No lookup of a collapse pass fails**, on any forest. -/
theorem Forest.collapseChecked_eq (isChild : Bool) (forest : Forest) :
    forest.collapseChecked isChild = some (forest.collapse isChild) := by
  unfold collapseChecked collapse
  cases hnames : IndexName.ofNames (forest.map Route.name) with
  | error fault => rfl
  | ok indexes =>
    exact Collapse.siblingsChecked_eq fun route _ => Collapse.routeChecked_eq (Collapse.areRead_of_ofNames hnames) isChild route

end PageRouting
