import PageRouting.StableSort

/-!
# `PageRouting/Proofs/Sorting.lean` — what the stable sort makes of a list

The sort asks its relation about pairs of members only, so its laws are stated for the members of one list: a relation
that orders them, whatever it does to other elements, is enough.

* `stableSort_pairwise`: where the relation is asymmetric and its negation transitive, nobody has to stand before anyone
  in front of them.
* `stableSort_eq_of_perm`: where it separates any two members besides, the result depends on the members alone and not
  on the order in which they came.
* `stableSort_concat`: a list that is sorted already and has one new element at its end is cut in two, and the element goes
  in between.

The first two are then read for a comparison (`stableSort_eq_of_compare`), which is how page files are sorted. Where members
do tie, a comparison still leaves a stable sort no choice (`stablySorted_iff`).
-/

set_option autoImplicit false

namespace PageRouting

variable {α : Type}

/-- The relation orders the elements that satisfy `member`, up to ties. -/
structure Orders (precedes : α → α → Bool) (member : α → Prop) : Prop where
  asymm : ∀ {a b}, member a → member b → precedes a b = true → precedes b a = false
  trans : ∀ {a b c}, member a → member b → member c →
    precedes b a = false → precedes c b = false → precedes c a = false

theorem Orders.mono {precedes : α → α → Bool} {member smaller : α → Prop} (h : Orders precedes member)
    (hs : ∀ a, smaller a → member a) : Orders precedes smaller where
  asymm ha hb := h.asymm (hs _ ha) (hs _ hb)
  trans ha hb hc := h.trans (hs _ ha) (hs _ hb) (hs _ hc)

theorem insertStable_pairwise {precedes : α → α → Bool} {a : α} {bs : List α}
    (h : Orders precedes (· ∈ a :: bs)) (hs : bs.Pairwise fun b c => precedes c b = false) :
    (insertStable precedes a bs).Pairwise fun b c => precedes c b = false := by
  fun_induction insertStable precedes a bs with
  | case1 => exact List.pairwise_singleton _ _
  | case2 b bs hba ih =>
    obtain ⟨hb, hbs⟩ := List.pairwise_cons.mp hs
    have hsub : ∀ x, x ∈ a :: bs → x ∈ a :: b :: bs := by
      intro x hx
      rcases List.mem_cons.mp hx with rfl | hx
      · exact List.mem_cons_self
      · exact List.mem_cons_of_mem _ (List.mem_cons_of_mem _ hx)
    refine List.pairwise_cons.mpr ⟨fun c hc => ?_, ih (h.mono hsub) hbs⟩
    -- what follows `b` is now `a` as well
    rcases List.mem_cons.mp ((insertStable_perm precedes a bs).mem_iff.mp hc) with rfl | hc
    · exact h.asymm (by simp) (by simp) hba
    · exact hb c hc
  | case3 b bs hba =>
    obtain ⟨hb, -⟩ := List.pairwise_cons.mp hs
    have hba : precedes b a = false := by simpa using hba
    refine List.pairwise_cons.mpr ⟨fun c hc => ?_, hs⟩
    rcases List.mem_cons.mp hc with rfl | hc
    · exact hba
    · exact h.trans (by simp) (by simp) (by simp [hc]) hba (hb c hc)

theorem stableSort_pairwise {precedes : α → α → Bool} {as : List α} (h : Orders precedes (· ∈ as)) :
    (stableSort precedes as).Pairwise fun b c => precedes c b = false := by
  induction as with
  | nil => exact .nil
  | cons a as ih =>
    refine insertStable_pairwise (h.mono fun b hb => ?_) (ih (h.mono fun b hb => List.mem_cons_of_mem _ hb))
    rcases List.mem_cons.mp hb with rfl | hb
    · exact List.mem_cons_self
    · exact List.mem_cons_of_mem _ (mem_stableSort.mp hb)

/-- Where no two members tie, the result depends on the members alone. -/
theorem stableSort_eq_of_perm {precedes : α → α → Bool} {as bs : List α} (h : Orders precedes (· ∈ as))
    (antisymm : ∀ a ∈ as, ∀ b ∈ as, precedes a b = false → precedes b a = false → a = b) (hp : as.Perm bs) :
    stableSort precedes as = stableSort precedes bs := by
  have hb : Orders precedes (· ∈ bs) := h.mono fun b hb => hp.mem_iff.mpr hb
  refine List.Perm.eq_of_pairwise (fun a b ha hb' hab hba => ?_) (stableSort_pairwise h) (stableSort_pairwise hb)
    ((stableSort_perm precedes as).trans (hp.trans (stableSort_perm precedes bs).symm))
  exact antisymm a (mem_stableSort.mp ha) b (hp.mem_iff.mpr (mem_stableSort.mp hb')) hba hab

/-! ## A sorted list with one new element at its end -/

theorem insertStable_of_forall {precedes : α → α → Bool} {a : α} {bs : List α} (h : ∀ b ∈ bs, precedes b a = false) :
    insertStable precedes a bs = a :: bs := by
  cases bs with
  | nil => rfl
  | cons b bs => rw [insertStable, h b List.mem_cons_self, if_neg Bool.false_ne_true]

theorem stableSort_of_pairwise {precedes : α → α → Bool} {as : List α} (h : as.Pairwise fun b c => precedes c b = false) :
    stableSort precedes as = as := by
  induction as with
  | nil => rfl
  | cons a as ih =>
    obtain ⟨ha, has⟩ := List.pairwise_cons.mp h
    rw [stableSort, ih has, insertStable_of_forall ha]

/-- The new element goes behind everything that does not have to stand behind it, and nothing else moves. -/
theorem stableSort_concat {precedes : α → α → Bool} {as : List α} {b : α} (h : Orders precedes (· ∈ as ++ [b]))
    (hs : as.Pairwise fun x y => precedes y x = false) :
    ∃ front back, as = front ++ back ∧ stableSort precedes (as ++ [b]) = front ++ b :: back ∧
      (∀ x ∈ front, precedes b x = false) ∧ ∀ y ∈ back, precedes b y = true := by
  induction as with
  | nil => exact ⟨[], [], rfl, rfl, by simp, by simp⟩
  | cons a as ih =>
    obtain ⟨ha, has⟩ := List.pairwise_cons.mp hs
    have hsub : ∀ x, x ∈ as ++ [b] → x ∈ a :: as ++ [b] := fun x hx => List.mem_cons_of_mem a hx
    obtain ⟨front, back, rfl, hsort, hfront, hback⟩ := ih (h.mono hsub) has
    rw [List.cons_append, stableSort, hsort]
    cases front with
    | nil =>
      have hrest : insertStable precedes a back = a :: back := insertStable_of_forall ha
      cases hba : precedes b a with
      | true =>
        refine ⟨[], a :: back, rfl, ?_, by simp, ?_⟩
        · rw [List.nil_append, insertStable, hba, if_pos rfl, hrest]
          rfl
        · intro y hy
          rcases List.mem_cons.mp hy with rfl | hy
          · exact hba
          · exact hback y hy
      | false =>
        refine ⟨[a], back, rfl, ?_, by simpa using hba, hback⟩
        rw [List.nil_append, insertStable, hba, if_neg Bool.false_ne_true]
        rfl
    | cons x front =>
      have hxa : precedes x a = false := ha x (by simp)
      have hbx : precedes b x = false := hfront x List.mem_cons_self
      have hba : precedes b a = false := h.trans (by simp) (by simp) (by simp) hxa hbx
      refine ⟨a :: x :: front, back, rfl, ?_, ?_, hback⟩
      · rw [List.cons_append, insertStable, hxa, if_neg Bool.false_ne_true]
        rfl
      · intro y hy
        rcases List.mem_cons.mp hy with rfl | hy
        · exact hba
        · exact hfront y hy

/-- So a finer order that the list is in already is kept, if the new element fits it on both sides of the cut. -/
theorem stableSort_concat_pairwise {precedes : α → α → Bool} {finer : α → α → Prop} {as : List α} {b : α}
    (h : Orders precedes (· ∈ as ++ [b])) (refines : ∀ x ∈ as, ∀ y ∈ as, finer x y → precedes y x = false)
    (hs : as.Pairwise finer) (hbefore : ∀ x ∈ as, precedes b x = false → finer x b)
    (hbehind : ∀ y ∈ as, precedes b y = true → finer b y) :
    (stableSort precedes (as ++ [b])).Pairwise finer := by
  have hsorted : as.Pairwise fun x y => precedes y x = false :=
    hs.imp_of_mem fun {x y} hx hy hxy => refines x hx y hy hxy
  obtain ⟨front, back, rfl, hsort, hfront, hback⟩ := stableSort_concat h hsorted
  obtain ⟨hf, hb, hcross⟩ := List.pairwise_append.mp hs
  rw [hsort]
  refine List.pairwise_append.mpr ⟨hf, List.pairwise_cons.mpr ⟨fun y hy => ?_, hb⟩, fun x hx y hy => ?_⟩
  · exact hbehind y (List.mem_append_right _ hy) (hback y hy)
  · rcases List.mem_cons.mp hy with rfl | hy
    · exact hbefore x (List.mem_append_left _ hx) (hfront x hx)
    · exact hcross x hx y hy

/-- Sorting looks at nothing but what the relation says, so it may be done before or after the elements are read. -/
theorem stableSort_map {β : Type} {f : α → β} {precedes : α → α → Bool} {precedes' : β → β → Bool}
    (h : ∀ a b, precedes' (f a) (f b) = precedes a b) (as : List α) :
    stableSort precedes' (as.map f) = (stableSort precedes as).map f := by
  have hinsert : ∀ (a : α) (bs : List α), insertStable precedes' (f a) (bs.map f) = (insertStable precedes a bs).map f := by
    intro a bs
    induction bs with
    | nil => rfl
    | cons b bs ih =>
      rw [List.map_cons, insertStable, insertStable, h, ih]
      split <;> rfl
  induction as with
  | nil => rfl
  | cons a as ih => rw [List.map_cons, stableSort, stableSort, ih, hinsert]

/-! ## Sorting by a comparison -/

section Compare

variable (cmp : α → α → Ordering) [Std.TransCmp cmp]

theorem isLE_of_ne_lt {a b : α} (h : cmp b a ≠ .lt) : (cmp a b).isLE := by
  cases hab : cmp a b with
  | lt | eq => rfl
  | gt => exact absurd (Std.OrientedCmp.lt_of_gt hab) h

theorem orders_of_compare (member : α → Prop) : Orders (fun a b => cmp a b == .lt) member where
  asymm {a b} _ _ hab := by
    rw [beq_iff_eq] at hab
    rw [beq_eq_false_iff_ne, Std.OrientedCmp.gt_of_lt hab]
    simp
  trans {a b c} _ _ _ hba hcb := by
    rw [beq_eq_false_iff_ne] at *
    have hac : (cmp a c).isLE := Std.TransCmp.isLE_trans (isLE_of_ne_lt cmp hba) (isLE_of_ne_lt cmp hcb)
    exact Std.OrientedCmp.not_lt_of_isLE hac

/-- Sorting by a comparison under which different members never tie depends on the members alone. -/
theorem stableSort_eq_of_compare {as bs : List α} (separates : ∀ a ∈ as, ∀ b ∈ as, cmp a b = .eq → a = b)
    (hp : as.Perm bs) : stableSort (fun a b => cmp a b == .lt) as = stableSort (fun a b => cmp a b == .lt) bs := by
  refine stableSort_eq_of_perm (orders_of_compare cmp _) (fun a ha b hb hab hba => ?_) hp
  rw [beq_eq_false_iff_ne] at hab hba
  rcases Ordering.isLE_iff_eq_lt_or_eq_eq.mp (isLE_of_ne_lt cmp hba) with hlt | heq
  · exact absurd hlt hab
  · exact separates a ha b hb heq

end Compare

/-! ## Whatever stable sort is used -/

/--
What any stable sort makes of a list: the same members, none of them before one that has to stand before it, and those that tie
with a member in the order in which they came.
-/
structure StablySorted (cmp : α → α → Ordering) (as sorted : List α) : Prop where
  perm : sorted.Perm as
  ordered : sorted.Pairwise fun a b => cmp a b ≠ .gt
  stable : ∀ a ∈ as, sorted.filter (fun b => cmp a b == .eq) = as.filter fun b => cmp a b == .eq

theorem stableSort_congr {precedes precedes' : α → α → Bool} {as : List α}
    (h : ∀ a ∈ as, ∀ b ∈ as, precedes a b = precedes' a b) : stableSort precedes as = stableSort precedes' as := by
  have hinsert : ∀ (a : α) (bs : List α), (∀ b ∈ bs, precedes b a = precedes' b a) →
      insertStable precedes a bs = insertStable precedes' a bs := by
    intro a bs hbs
    induction bs with
    | nil => rfl
    | cons b bs ih =>
      rw [insertStable, insertStable, hbs b List.mem_cons_self, ih fun c hc => hbs c (List.mem_cons_of_mem _ hc)]
  induction as with
  | nil => rfl
  | cons a as ih =>
    have hrest : stableSort precedes as = stableSort precedes' as :=
      ih fun b hb c hc => h b (List.mem_cons_of_mem _ hb) c (List.mem_cons_of_mem _ hc)
    rw [stableSort, stableSort, hrest]
    exact hinsert a _ fun b hb => h b (List.mem_cons_of_mem _ (mem_stableSort.mp hb)) a List.mem_cons_self

theorem StablySorted.congr {cmp cmp' : α → α → Ordering} {as sorted : List α} (h : ∀ a ∈ as, ∀ b ∈ as, cmp a b = cmp' a b)
    (hs : StablySorted cmp as sorted) : StablySorted cmp' as sorted where
  perm := hs.perm
  ordered := by
    refine hs.ordered.imp_of_mem fun {a b} ha hb hab => ?_
    rwa [← h a (hs.perm.mem_iff.mp ha) b (hs.perm.mem_iff.mp hb)]
  stable a ha := by
    have hties : ∀ bs : List α, (∀ b ∈ bs, b ∈ as) →
        bs.filter (fun b => cmp' a b == .eq) = bs.filter fun b => cmp a b == .eq := by
      intro bs hbs
      exact List.filter_congr fun b hb => by rw [h a ha b (hbs b hb)]
    rw [hties sorted fun b hb => hs.perm.mem_iff.mp hb, hties as fun _ hb => hb]
    exact hs.stable a ha

section Compare

variable {cmp : α → α → Ordering} [Std.TransCmp cmp]

theorem filter_insertStable (x a : α) (bs : List α) :
    (insertStable (fun b c => cmp b c == .lt) a bs).filter (fun b => cmp x b == .eq) =
      (a :: bs).filter fun b => cmp x b == .eq := by
  fun_induction insertStable (fun b c => cmp b c == .lt) a bs with
  | case1 => rfl
  | case2 b bs hba ih =>
    -- one that has to stand before the other does not tie with the same elements
    have hne : cmp x b = .eq → cmp x a ≠ .eq := by
      intro hxb hxa
      have htie : cmp b a = .eq := Std.TransCmp.eq_trans (Std.OrientedCmp.eq_symm hxb) hxa
      rw [htie] at hba
      cases hba
    rw [List.filter_cons, ih, List.filter_cons, List.filter_cons, List.filter_cons]
    by_cases hxb : cmp x b = .eq
    · have hxa := hne hxb
      simp [hxb, hxa]
    · simp [hxb]
  | case3 => rfl

theorem stablySorted_stableSort (as : List α) : StablySorted cmp as (stableSort (fun a b => cmp a b == .lt) as) where
  perm := stableSort_perm _ as
  ordered := by
    refine (stableSort_pairwise (orders_of_compare cmp (· ∈ as))).imp fun {a b} hba hgt => ?_
    rw [beq_eq_false_iff_ne] at hba
    exact hba (Std.OrientedCmp.lt_of_gt hgt)
  stable x hx := by
    clear hx
    induction as with
    | nil => rfl
    | cons a as ih => rw [stableSort, filter_insertStable, List.filter_cons, List.filter_cons, ih]

/-- The heads of two such lists tie, and each list has first the same one of those that tie with them. -/
theorem StablySorted.unique {as sorted others : List α} (hs : StablySorted cmp as sorted) (ho : StablySorted cmp as others) :
    sorted = others := by
  have hperm : sorted.Perm others := hs.perm.trans ho.perm.symm
  have hties : ∀ a ∈ sorted, sorted.filter (fun b => cmp a b == .eq) = others.filter fun b => cmp a b == .eq := by
    intro a ha
    have hm := hs.perm.mem_iff.mp ha
    rw [hs.stable a hm, ho.stable a hm]
  have hsorted := hs.ordered
  have hothers := ho.ordered
  clear hs ho
  induction sorted generalizing others with
  | nil => exact (List.nil_perm.mp hperm).symm
  | cons a sorted ih =>
    cases others with
    | nil => exact absurd (List.perm_nil.mp hperm) (List.cons_ne_nil _ _)
    | cons b others =>
      obtain ⟨ha, hrest⟩ := List.pairwise_cons.mp hsorted
      obtain ⟨hb, hrest'⟩ := List.pairwise_cons.mp hothers
      have hself : ∀ x : α, cmp x x = .eq := fun x => Std.ReflCmp.compare_self
      have hab : cmp a b ≠ .gt := by
        rcases List.mem_cons.mp (hperm.mem_iff.mpr List.mem_cons_self) with rfl | hm
        · rw [hself]
          simp
        · exact ha b hm
      have hba : cmp b a ≠ .gt := by
        rcases List.mem_cons.mp (hperm.mem_iff.mp List.mem_cons_self) with rfl | hm
        · rw [hself]
          simp
        · exact hb a hm
      have htie : cmp a b = .eq := by
        cases hcmp : cmp a b with
        | lt => exact absurd (Std.OrientedCmp.gt_of_lt hcmp) hba
        | eq => rfl
        | gt => exact absurd hcmp hab
      obtain rfl : a = b := by
        have hfirst := hties a List.mem_cons_self
        rw [List.filter_cons_of_pos (by simp [hself]), List.filter_cons_of_pos (by simp [htie])] at hfirst
        exact (List.cons.inj hfirst).1
      refine congrArg (a :: ·) (ih hperm.cons_inv (fun x hx => ?_) hrest hrest')
      have hx := hties x (List.mem_cons_of_mem _ hx)
      rw [List.filter_cons, List.filter_cons] at hx
      split at hx
      · exact (List.cons.inj hx).2
      · exact hx

/-- A comparison that is total and transitive on the members leaves a stable sort no choice. -/
theorem stablySorted_iff {cmp' : α → α → Ordering} {as sorted : List α} (h : ∀ a ∈ as, ∀ b ∈ as, cmp' a b = cmp a b) :
    StablySorted cmp' as sorted ↔ sorted = stableSort (fun a b => cmp' a b == .lt) as := by
  have hsort : stableSort (fun a b => cmp' a b == .lt) as = stableSort (fun a b => cmp a b == .lt) as :=
    stableSort_congr fun a ha b hb => by rw [h a ha b hb]
  have hstable : StablySorted cmp' as (stableSort (fun a b => cmp' a b == .lt) as) := by
    rw [hsort]
    exact (stablySorted_stableSort as).congr fun a ha b hb => (h a ha b hb).symm
  constructor
  · intro hs
    exact (hs.congr h).unique (hstable.congr h)
  · rintro rfl
    exact hstable

end Compare

end PageRouting
