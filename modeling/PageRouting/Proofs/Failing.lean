import PageRouting.Proofs.Antisymmetry
import PageRouting.Proofs.FileSet
import PageRouting.Proofs.Following
import PageRouting.Proofs.Lookups
import PageRouting.Proofs.Settling

/-!
# `PageRouting/Proofs/Failing.lean` — when a compilation fails

A compilation can fail in two stages. First its files are read, each once, and the first one that cannot be read decides: the
layout rejects it, or it has no component path. After that only the collapse pass is left, and the pass stops only at a name that
it takes for that of an index route and then cannot read. The names in the forest are the labels of the files' keys, joined by
dashes as far as some place (`Trie.exists_name_iff`), so whether there is such a name can be seen from the files, one by one
(`isReadable_iff`).

Put together, this says of every listing what becomes of it (`compile_outcomes`). What the component paths are is left open, and so
is why a file has none. A host may refuse a null character, a name that it cannot encode, or links that lead in a circle; as long
as paths are resolved by their text alone, the null character is all that is refused (`Layout.componentOf_eq_error`).
-/

set_option autoImplicit false

namespace PageRouting

/-! ## The first bad file -/

theorem Text.find?_distinct (p : Text → Bool) (ts : List Text) : (distinct ts).find? p = ts.find? p := by
  induction ts with
  | nil => rfl
  | cons t ts ih =>
    rw [distinct, List.find?_cons, List.find?_cons]
    cases ht : p t with
    | true => rfl
    | false =>
      have hsame : (fun a => decide (decide (a ≠ t) = true ∧ p a = true)) = p := by
        funext a
        by_cases ha : a = t
        · simp [ha, ht]
        · simp [ha]
      dsimp only
      rw [List.find?_filter, hsame, ih]

theorem mapM_eq_error_iff {ε α β : Type} {f : α → Except ε β} {xs : List α} {fault : ε} :
    xs.mapM f = .error fault ↔ ∃ x, xs.find? (fun x => !(f x).isOk) = some x ∧ f x = .error fault := by
  induction xs with
  | nil => simp [pure, Except.pure]
  | cons x xs ih =>
    rw [List.mapM_cons, List.find?_cons]
    cases hx : f x with
    | error other =>
      have hbad : (!(f x).isOk) = true := by
        rw [hx]
        rfl
      rw [← hx, hbad]
      simp [hx, bind, Except.bind]
    | ok y =>
      have hgood : (!(f x).isOk) = false := by
        rw [hx]
        rfl
      rw [← hx, hgood]
      simp only [← ih]
      cases xs.mapM f <;> simp [hx, bind, Except.bind, pure, Except.pure]

/-- Of two kinds of bad members, the first bad one is of the one kind exactly if a member of that kind has none of the other before it. -/
theorem find?_or_iff {α : Type} {p q : α → Prop} [DecidablePred p] [DecidablePred q] {xs : List α} :
    (∃ x, xs.find? (fun x => p x ∨ q x) = some x ∧ p x) ↔
      ∃ before x after, xs = before ++ x :: after ∧ p x ∧ ∀ y ∈ before, ¬ q y := by
  constructor
  · intro ⟨x, hfind, hp⟩
    obtain ⟨-, before, after, rfl, hbefore⟩ := List.find?_eq_some_iff_append.mp hfind
    refine ⟨before, x, after, rfl, hp, fun y hy hq => ?_⟩
    have hy := hbefore y hy
    simp [hq] at hy
  · intro ⟨before, x, after, hxs, hp, hbefore⟩
    subst hxs
    rw [List.find?_append]
    cases hfind : before.find? fun x => p x ∨ q x with
    | none =>
      refine ⟨x, ?_, hp⟩
      simp [hp]
    | some y =>
      have hbad : p y ∨ q y := by simpa using List.find?_some hfind
      exact ⟨y, rfl, hbad.resolve_right (hbefore y (List.mem_of_find?_eq_some hfind))⟩

namespace Layout

variable {ε : Type} (layout : Layout) (resolve : Text → Except ε Text)

def Rejects (file : Text) : Prop :=
  (layout.keys file).isOk = false

/-- Does the layout take the file, although there is no component path for it? -/
def Unresolvable (file : Text) : Prop :=
  (layout.keys file).isOk = true ∧ (resolve file).isOk = false

/-- Is one of the names on the way to the file's route taken for that of an index route, and then cannot be read? -/
def NamesUnreadable (file : Text) : Prop :=
  ∃ place ∈ (layout.labels file).inits, place ≠ [] ∧ IndexName.IsUnreadable (Text.join '-' place)

instance : DecidablePred layout.Rejects :=
  fun file => inferInstanceAs (Decidable ((layout.keys file).isOk = false))

instance : DecidablePred (layout.Unresolvable resolve) :=
  fun file => inferInstanceAs (Decidable ((layout.keys file).isOk = true ∧ (resolve file).isOk = false))

instance : DecidablePred layout.NamesUnreadable :=
  fun file => inferInstanceAs (Decidable (∃ place ∈ (layout.labels file).inits, place ≠ [] ∧ IndexName.IsUnreadable (Text.join '-' place)))

variable {layout resolve} {file : Text}

theorem isOk_ofFileWith : (PageEntry.ofFileWith resolve layout file).isOk = false ↔
    layout.Rejects file ∨ layout.Unresolvable resolve file := by
  unfold PageEntry.ofFileWith Layout.segments Rejects Unresolvable
  cases layout.keys file with
  | error fault => simp [bind, Except.bind, Except.map, Except.isOk, Except.toBool]
  | ok keys =>
    cases resolve file with
    | error cause => simp [bind, Except.bind, Except.map, Except.isOk, Except.toBool]
    | ok component => simp [bind, Except.bind, Except.map, Except.isOk, Except.toBool, pure, Except.pure]

/-- Of a bad file, what it says is of the kind that it is bad by. -/
theorem rejects_iff_of_ofFileWith {cause : Fault ⊕ ε} (h : PageEntry.ofFileWith resolve layout file = .error cause) :
    layout.Rejects file ↔ ∃ fault, cause = .inl fault := by
  rcases PageEntry.ofFileWith_eq_error_iff.mp h with ⟨fault, hkeys, rfl⟩ | ⟨keys, other, hkeys, -, rfl⟩
  · simp [Rejects, hkeys, Except.isOk, Except.toBool]
  · simp [Rejects, hkeys, Except.isOk, Except.toBool]

theorem ofFileWith_eq_inr_iff {cause : ε} : PageEntry.ofFileWith resolve layout file = .error (.inr cause) ↔
    ¬ layout.Rejects file ∧ resolve file = .error cause := by
  rw [PageEntry.ofFileWith_eq_error_iff, Rejects]
  cases layout.keys file <;> simp [Except.isOk, Except.toBool]

end Layout

namespace Compilation

variable {ε : Type} {resolve : Text → Except ε Text} {layout : Layout} {files : List Text}

/-! ## The entries -/

/-- The entries cannot be read exactly if there is a bad file, and then the first one says why. -/
theorem entriesWith_eq_error_iff {cause : Fault ⊕ ε} : entriesWith resolve layout files = .error cause ↔
    ∃ file, files.find? (fun file => layout.Rejects file ∨ layout.Unresolvable resolve file) = some file ∧
      PageEntry.ofFileWith resolve layout file = .error cause := by
  have hbad : (fun file => !(PageEntry.ofFileWith resolve layout file).isOk) =
      fun file => decide (layout.Rejects file ∨ layout.Unresolvable resolve file) := by
    funext file
    rw [Bool.eq_iff_iff, decide_eq_true_iff, ← Layout.isOk_ofFileWith, Bool.not_eq_true']
  rw [← Text.find?_distinct, ← hbad, ← mapM_eq_error_iff, entriesWith]
  cases (Text.distinct files).mapM (PageEntry.ofFileWith resolve layout) <;> simp [Except.map]

theorem exists_entriesWith_iff : (∃ entries, entriesWith resolve layout files = .ok entries) ↔
    ∀ file ∈ files, ¬ layout.Rejects file ∧ ¬ layout.Unresolvable resolve file := by
  have hnone : (∀ file ∈ files, ¬ layout.Rejects file ∧ ¬ layout.Unresolvable resolve file) ↔
      files.find? (fun file => layout.Rejects file ∨ layout.Unresolvable resolve file) = none := by
    simp [List.find?_eq_none, not_or]
  rw [hnone]
  constructor
  · intro ⟨entries, he⟩
    cases hf : files.find? fun file => layout.Rejects file ∨ layout.Unresolvable resolve file with
    | none => rfl
    | some file =>
      have hbad : layout.Rejects file ∨ layout.Unresolvable resolve file := by simpa using List.find?_some hf
      cases hread : PageEntry.ofFileWith resolve layout file with
      | error cause =>
        rw [entriesWith_eq_error_iff.mpr ⟨file, hf, hread⟩] at he
        cases he
      | ok entry =>
        have hok := Layout.isOk_ofFileWith.mpr hbad
        rw [hread] at hok
        cases hok
  · intro hnone
    cases he : entriesWith resolve layout files with
    | ok entries => exact ⟨entries, rfl⟩
    | error cause =>
      obtain ⟨file, hf, -⟩ := entriesWith_eq_error_iff.mp he
      rw [hnone] at hf
      cases hf

/-- A rejected file is the first bad one if there is none before it that is bad in the other way. -/
theorem exists_rejection_iff : (∃ fault, entriesWith resolve layout files = .error (.inl fault)) ↔
    ∃ before file after, files = before ++ file :: after ∧ layout.Rejects file ∧
      ∀ other ∈ before, ¬ layout.Unresolvable resolve other := by
  rw [← find?_or_iff]
  constructor
  · intro ⟨fault, he⟩
    obtain ⟨file, hf, hread⟩ := entriesWith_eq_error_iff.mp he
    exact ⟨file, hf, (Layout.rejects_iff_of_ofFileWith hread).mpr ⟨fault, rfl⟩⟩
  · intro ⟨file, hf, hrejects⟩
    have hbad := Layout.isOk_ofFileWith.mpr (.inl hrejects : layout.Rejects file ∨ layout.Unresolvable resolve file)
    cases hread : PageEntry.ofFileWith resolve layout file with
    | ok entry =>
      rw [hread] at hbad
      cases hbad
    | error cause =>
      obtain ⟨fault, rfl⟩ := (Layout.rejects_iff_of_ofFileWith hread).mp hrejects
      exact ⟨fault, entriesWith_eq_error_iff.mpr ⟨file, hf, hread⟩⟩

/-- A file without a component path stops the reading with its cause if it is the first bad one. -/
theorem entriesWith_eq_inr_iff {cause : ε} : entriesWith resolve layout files = .error (.inr cause) ↔
    ∃ before file after, files = before ++ file :: after ∧ ¬ layout.Rejects file ∧ resolve file = .error cause ∧
      ∀ other ∈ before, ¬ layout.Rejects other ∧ ¬ layout.Unresolvable resolve other := by
  simp only [entriesWith_eq_error_iff, Layout.ofFileWith_eq_inr_iff, List.find?_eq_some_iff_append]
  constructor
  · rintro ⟨file, ⟨-, before, after, rfl, hbefore⟩, hread⟩
    refine ⟨before, file, after, rfl, hread.1, hread.2, fun other hm => ?_⟩
    simpa [not_or] using hbefore other hm
  · rintro ⟨before, file, after, rfl, hrejects, hcause, hbefore⟩
    have hunresolvable : layout.Unresolvable resolve file := ⟨by simpa [Layout.Rejects] using hrejects, by rw [hcause]; rfl⟩
    refine ⟨file, ⟨by simp [hunresolvable], before, after, rfl, fun other hm => ?_⟩, hrejects, hcause⟩
    simpa [not_or] using hbefore other hm

theorem isLabelled_of_entriesWith {entries : List PageEntry} (he : entriesWith resolve layout files = .ok entries) :
    ∀ entry ∈ entries, entry.IsLabelled := by
  intro entry hm
  obtain ⟨file, -, hread⟩ := (mem_entriesWith_iff he).mp hm
  exact PageEntry.isLabelled_of_ofFileWith hread

theorem isReadable_iff {entries : List PageEntry} (he : entriesWith resolve layout files = .ok entries) :
    Trie.IsReadable entries ↔ ∀ file ∈ files, ¬ layout.NamesUnreadable file := by
  have hentries := isLabelled_of_entriesWith he
  -- the trie extends names label by label, a file joins its labels at once
  have hname : ∀ place, place ≠ [] → (Trie.plan entries).reaches place → Trie.routeName place = Text.join '-' place := by
    intro place hne hr
    obtain ⟨above, label, rfl⟩ := (List.eq_nil_or_concat place).resolve_left hne
    rw [List.concat_eq_append] at hr ⊢
    exact Trie.routeName_concat_eq_join (Trie.ne_nil_of_reaches hentries hr) label
  constructor
  · intro hreadable file hfile ⟨place, hplace, hne, hbad⟩
    obtain ⟨entry, hm, hread⟩ := exists_entryWith he hfile
    have hr : (Trie.plan entries).reaches place := by
      refine ⟨entry, hm, ?_⟩
      rw [PageEntry.labels_of_ofFileWith hread]
      exact (List.mem_inits _ _).mp hplace
    rw [← hname place hne hr] at hbad
    exact hreadable place hne hr hbad
  · intro hfiles place hne hr hbad
    rw [hname place hne hr] at hbad
    obtain ⟨entry, hm, hp⟩ := hr
    obtain ⟨file, hfile, hread⟩ := (mem_entriesWith_iff he).mp hm
    rw [PageEntry.labels_of_ofFileWith hread] at hp
    exact hfiles file hfile ⟨place, (List.mem_inits _ _).mpr hp, hne, hbad⟩

/-! ## Each outcome -/

theorem compileWith_eq_error_iff {cause : ε} :
    compileWith resolve layout files = .error cause ↔ entriesWith resolve layout files = .error (.inr cause) := by
  unfold compileWith
  split <;> next he => simp [he]

/-- What is compiled is what the entries come to, or that there are none. -/
theorem compileWith_eq_ok_iff {compilation : Compilation} : compileWith resolve layout files = .ok compilation ↔
    (∃ fault, entriesWith resolve layout files = .error (.inl fault) ∧ compilation = { result := .error fault, notices := [] }) ∨
      ∃ entries, entriesWith resolve layout files = .ok entries ∧ compilation = Compilation.ofEntries entries := by
  unfold compileWith
  split <;> next he => simp [he, eq_comm]

/-- The files that cannot be read are rejected, and the names in the forest of the others decide what they come to. -/
theorem compilation_cases {compilation : Compilation} (h : compileWith resolve layout files = .ok compilation) :
    ((∃ fault, entriesWith resolve layout files = .error (.inl fault)) ∧ compilation.IsRejected) ∨
      (∃ entries, entriesWith resolve layout files = .ok entries) ∧
        ((∃ file ∈ files, layout.NamesUnreadable file) ∧ compilation.result = .error .missingIndexPart ∨
          (∀ file ∈ files, ¬ layout.NamesUnreadable file) ∧ ∃ forest, compilation.result = .ok forest) := by
  rcases compileWith_eq_ok_iff.mp h with ⟨fault, he, rfl⟩ | ⟨entries, he, rfl⟩
  · obtain ⟨file, -, hread⟩ := entriesWith_eq_error_iff.mp he
    rcases PageEntry.ofFileWith_eq_error_iff.mp hread with ⟨_, hkeys, hfault⟩ | ⟨_, _, _, _, hfault⟩ <;> cases hfault
    exact .inl ⟨⟨fault, he⟩, fault, rfl, Layout.isRejectedPage_of_keys hkeys⟩
  · have hends := Compilation.ofEntries_cases (isLabelled_of_entriesWith he)
    rw [isReadable_iff he] at hends
    exact .inr ⟨⟨entries, he⟩, hends.imp_left fun ⟨hbad, hresult⟩ => ⟨by simpa using hbad, hresult⟩⟩

theorem exists_isRejected_iff : (∃ compilation, compileWith resolve layout files = .ok compilation ∧ compilation.IsRejected) ↔
    ∃ fault, entriesWith resolve layout files = .error (.inl fault) := by
  constructor
  · rintro ⟨compilation, h, fault, hfault, hrejected⟩
    rcases compilation_cases h with ⟨he, -⟩ | ⟨-, ⟨-, hresult⟩ | ⟨-, forest, hresult⟩⟩
    · exact he
    · rw [hresult] at hfault
      cases hfault
      cases hrejected
    · rw [hresult] at hfault
      cases hfault
  · intro ⟨fault, he⟩
    have h := compileWith_eq_ok_iff.mpr (.inl ⟨fault, he, rfl⟩)
    refine ⟨_, h, ?_⟩
    rcases compilation_cases h with ⟨-, hrejected⟩ | ⟨⟨entries, hok⟩, -⟩
    · exact hrejected
    · rw [he] at hok
      cases hok

theorem exists_missingIndexPart_iff :
    (∃ compilation, compileWith resolve layout files = .ok compilation ∧ compilation.result = .error .missingIndexPart) ↔
      (∃ entries, entriesWith resolve layout files = .ok entries) ∧ ∃ file ∈ files, layout.NamesUnreadable file := by
  constructor
  · rintro ⟨compilation, h, hmissing⟩
    rcases compilation_cases h with ⟨-, fault, hfault, hrejected⟩ | ⟨he, ⟨hbad, -⟩ | ⟨-, forest, hresult⟩⟩
    · rw [hmissing] at hfault
      cases hfault
      cases hrejected
    · exact ⟨he, hbad⟩
    · rw [hmissing] at hresult
      cases hresult
  · intro ⟨⟨entries, he⟩, file, hfile, hbad⟩
    have h := compileWith_eq_ok_iff.mpr (.inr ⟨entries, he, rfl⟩)
    refine ⟨_, h, ?_⟩
    rcases compilation_cases h with ⟨⟨fault, herror⟩, -⟩ | ⟨-, ⟨-, hmissing⟩ | ⟨hgood, -⟩⟩
    · rw [he] at herror
      cases herror
    · exact hmissing
    · exact absurd hbad (hgood file hfile)

theorem compileWith_ends (resolve : Text → Except ε Text) (layout : Layout) (files : List Text) :
    (∃ cause, compileWith resolve layout files = .error cause) ∨
      ∃ compilation, compileWith resolve layout files = .ok compilation ∧
        (compilation.IsRejected ∨ compilation.result = .error .missingIndexPart ∨ ∃ forest, compilation.result = .ok forest) := by
  cases h : compileWith resolve layout files with
  | error cause => exact .inl ⟨cause, rfl⟩
  | ok compilation =>
    refine .inr ⟨compilation, rfl, ?_⟩
    rcases compilation_cases h with ⟨-, hrejected⟩ | ⟨-, ⟨-, hmissing⟩ | ⟨-, hforest⟩⟩
    · exact .inl hrejected
    · exact .inr (.inl hmissing)
    · exact .inr (.inr hforest)

/--
**What becomes of a listing**, whatever its component paths are and for whatever causes a file has none. It is rejected exactly if
the layout rejects a file and no file before the first such one lacks a component path; it stops for the cause of a file that lacks
one exactly if that file is the first bad one; and it stops at a missing part `index` exactly if all its files can be read and one
of them names a route that cannot be read. There is nothing else that could fail: every other listing is compiled to a forest. In
particular no look into a list is behind its end, neither in the collapse pass nor where the patterns of siblings are compared.
-/
theorem compile_outcomes (resolve : Text → Except ε Text) (layout : Layout) (files : List Text) :
    let compiled := compileWith resolve layout files
    ((∃ compilation, compiled = .ok compilation ∧ compilation.IsRejected) ↔
      ∃ before file after, files = before ++ file :: after ∧ layout.Rejects file ∧
        ∀ other ∈ before, ¬ layout.Unresolvable resolve other) ∧
    (∀ cause, compiled = .error cause ↔
      ∃ before file after, files = before ++ file :: after ∧ ¬ layout.Rejects file ∧ resolve file = .error cause ∧
        ∀ other ∈ before, ¬ layout.Rejects other ∧ ¬ layout.Unresolvable resolve other) ∧
    ((∃ compilation, compiled = .ok compilation ∧ compilation.result = .error .missingIndexPart) ↔
      (∀ file ∈ files, ¬ layout.Rejects file ∧ ¬ layout.Unresolvable resolve file) ∧ ∃ file ∈ files, layout.NamesUnreadable file) ∧
    ((∃ cause, compiled = .error cause) ∨ ∃ compilation, compiled = .ok compilation ∧
      (compilation.IsRejected ∨ compilation.result = .error .missingIndexPart ∨ ∃ forest, compilation.result = .ok forest)) ∧
    (∀ isChild forest, Forest.collapseChecked isChild forest = some (forest.collapse isChild)) ∧
    ∀ a b, Pattern.walk a b = some (Pattern.compare a b) := by
  refine ⟨exists_isRejected_iff.trans exists_rejection_iff, fun cause => compileWith_eq_error_iff.trans entriesWith_eq_inr_iff,
    ?_, compileWith_ends resolve layout files, Forest.collapseChecked_eq, Pattern.walk_eq_some⟩
  rw [exists_missingIndexPart_iff, exists_entriesWith_iff]

-- a host that cannot follow the links of a file
example :
    let resolve (file : Text) := if file = "pages/ring.vue".toList then .error "too many links".toList else .ok file
    let layout : Layout := ⟨"/srv".toList, Layout.defaultPagesDir, Layout.defaultExtensions, .posix⟩
    (compileWith resolve layout ["pages/a.vue".toList, "pages/ring.vue".toList]).isOk = false := by
  decide +kernel

/-- A compilation by the texts of the paths is rejected where one with component paths from elsewhere is. -/
theorem isRejected_iff : (compile layout files).IsRejected ↔
    ∃ before file after, files = before ++ file :: after ∧ layout.Rejects file ∧
      ∀ other ∈ before, ¬ layout.Unresolvable layout.componentOf other := by
  rw [← exists_rejection_iff, ← exists_isRejected_iff, compile]
  cases h : compileWith layout.componentOf layout files with
  | ok compilation => simp
  | error fault =>
    obtain ⟨_, file, _, -, -, hcomponent, -⟩ := entriesWith_eq_inr_iff.mp (compileWith_eq_error_iff.mp h)
    obtain rfl := Layout.componentOf_eq_error hcomponent
    simp [IsRejected, Fault.isRejectedPage]

/-- A page file whose name holds a null character is neither rejected nor under a bad name. All the same there is no forest. -/
theorem null_character_stops :
    let layout : Layout := ⟨"/srv/app".toList, Layout.defaultPagesDir, Layout.defaultExtensions, .posix⟩
    let files := ["pages/b\x00.vue".toList]
    ¬ ((∀ file ∈ files, ¬ layout.Rejects file) → (∀ file ∈ files, ¬ layout.NamesUnreadable file) →
      ∃ forest, (compile layout files).result = .ok forest) := by
  intro layout files hclaim
  obtain ⟨forest, hforest⟩ := hclaim (by decide +kernel) (by decide +kernel)
  have hnull : (compile layout files).result.isOk = false := by decide +kernel
  rw [hforest] at hnull
  cases hnull

end Compilation

end PageRouting
