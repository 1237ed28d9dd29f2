/-
Tables that are related entry by entry.

If every entry of one table is related to the entry at the same place of another, and related
entries have the same name, then so is what is found under any name.  Lists that are related but
for their order (`Shuffled`) are so again when they are filtered and joined, and so are lists that
are related but for repetitions (`Echoes`).
-/
import Mathlib.Data.List.Forall2
import GraphSchema.Proofs.Tables

namespace GraphSchema

variable {α β : Type} {R S : α → β → Prop} {as : List α} {bs : List β}

/-- Only the entries that there are have to be looked at. -/
theorem forall₂_congr_of_mem (h : ∀ a ∈ as, ∀ b, R a b ↔ S a b) :
    List.Forall₂ R as bs ↔ List.Forall₂ S as bs := by
  have hboth : ∀ {T : α → β → Prop}, List.Forall₂ (fun a b => a ∈ as ∧ T a b) as bs ↔
      List.Forall₂ T as bs :=
    (List.forall₂_and_left as bs).trans (and_iff_right fun _ ha => ha)
  rw [← hboth (T := R), ← hboth (T := S)]
  exact ⟨fun hR => hR.imp fun a b hab => ⟨hab.1, (h a hab.1 b).mp hab.2⟩,
    fun hS => hS.imp fun a b hab => ⟨hab.1, (h a hab.1 b).mpr hab.2⟩⟩

theorem map_eq_of_forall₂ {γ : Type} {f : α → γ} {g : β → γ} (h : List.Forall₂ R as bs)
    (hfg : ∀ a ∈ as, ∀ b, R a b → g b = f a) :
    bs.map g = as.map f := by
  induction h with
  | nil => rfl
  | cons hab _ ih =>
    rw [List.forall_mem_cons] at hfg
    rw [List.map_cons, List.map_cons, hfg.1 _ hab, ih hfg.2]

theorem forall_of_forall₂ {Q : β → Prop} (h : List.Forall₂ R as bs)
    (hQ : ∀ a ∈ as, ∀ b, R a b → Q b) : ∀ b ∈ bs, Q b := by
  induction h with
  | nil => exact nofun
  | cons hab _ ih =>
    rw [List.forall_mem_cons] at hQ ⊢
    exact ⟨hQ.1 _ hab, ih hQ.2⟩

theorem exists_related_of_mem (h : List.Forall₂ R as bs) {a : α} (ha : a ∈ as) :
    ∃ b ∈ bs, R a b := by
  induction h with
  | nil => cases ha
  | cons hab _ ih =>
    rcases List.mem_cons.mp ha with rfl | ha
    · exact ⟨_, List.mem_cons_self, hab⟩
    · obtain ⟨b, hb, hab⟩ := ih ha
      exact ⟨b, List.mem_cons_of_mem _ hb, hab⟩

theorem exists_related_of_mem_right (h : List.Forall₂ R as bs) {b : β} (hb : b ∈ bs) :
    ∃ a ∈ as, R a b :=
  exists_related_of_mem h.flip hb

/-- What is related to a part of a list is a part of the other. -/
theorem exists_related_sublist (h : List.Forall₂ R as bs) {part : List α} (hsub : part.Sublist as) :
    ∃ part', part'.Sublist bs ∧ List.Forall₂ R part part' := by
  induction h generalizing part with
  | nil => exact ⟨[], .slnil, by rw [List.sublist_nil.mp hsub]; exact .nil⟩
  | cons hab _ ih =>
    cases hsub with
    | cons _ hsub =>
      obtain ⟨part', hsub', hrelated⟩ := ih hsub
      exact ⟨part', hsub'.cons _, hrelated⟩
    | cons_cons _ hsub =>
      obtain ⟨part', hsub', hrelated⟩ := ih hsub
      exact ⟨_ :: part', hsub'.cons_cons _, .cons hab hrelated⟩

theorem exists_related_pair (h : List.Forall₂ R as bs) {a a' : α} (hsub : [a, a'].Sublist as) :
    ∃ b b', [b, b'].Sublist bs ∧ R a b ∧ R a' b' := by
  obtain ⟨part, hsub', hrelated⟩ := exists_related_sublist h hsub
  cases hrelated with
  | cons hab hrest =>
    cases hrest with
    | cons hab' hnil =>
      cases hnil
      exact ⟨_, _, hsub', hab, hab'⟩

/-- What is found first is related, if the tests agree. -/
theorem rel_find?_of_forall₂ {p : α → Bool} {q : β → Bool} (h : List.Forall₂ R as bs)
    (hpq : ∀ a b, R a b → q b = p a) : Option.Rel R (as.find? p) (bs.find? q) := by
  induction h with
  | nil => exact .none
  | @cons a b _ _ hab _ ih =>
    rw [List.find?_cons, List.find?_cons, hpq a b hab]
    cases p a with
    | true => exact .some hab
    | false => exact ih

/-- If there is something for each related pair, there is a list of it. -/
theorem exists_forall₂ {γ : Type} {Q : α → γ → Prop} {T : β → γ → Prop} (h : List.Forall₂ R as bs)
    (hstep : ∀ a b, R a b → ∃ c, Q a c ∧ T b c) : ∃ cs, List.Forall₂ Q as cs ∧ List.Forall₂ T bs cs := by
  induction h with
  | nil => exact ⟨[], .nil, .nil⟩
  | cons hab _ ih =>
    obtain ⟨c, hac, hbc⟩ := hstep _ _ hab
    obtain ⟨cs, has, hbs⟩ := ih
    exact ⟨c :: cs, .cons hac has, .cons hbc hbs⟩

namespace NameTable

variable [Named α] [Named β] {t : NameTable α} {u : NameTable β}

theorem names_eq_of_related (h : List.Forall₂ R t.toList u.toList)
    (hname : ∀ a b, R a b → Named.name a = Named.name b) : t.names = u.names :=
  (map_eq_of_forall₂ h fun a _ b hab => (hname a b hab).symm).symm

/-- **What is found under a name is related as well.** -/
theorem rel_find? (h : List.Forall₂ R t.toList u.toList)
    (hname : ∀ a b, R a b → Named.name a = Named.name b) (name : String) :
    Option.Rel R (t.find? name) (u.find? name) :=
  rel_find?_of_forall₂ h fun a b hab => by rw [hname a b hab]

/-- A list that is related to a table is a table. -/
theorem exists_toList_eq {list : List β} (h : List.Forall₂ R t.toList list)
    (hname : ∀ a b, R a b → Named.name a = Named.name b) : ∃ u : NameTable β, u.toList = list := by
  have hnames : list.map Named.name = t.names := map_eq_of_forall₂ h fun a _ b hab => (hname a b hab).symm
  refine ⟨⟨list, List.pairwise_map.mp ?_⟩, rfl⟩
  rw [hnames]
  exact t.names_nodup

end NameTable

/-! ### In another order

For documents whose selections are written in another order: what stands for one document is
related, entry by entry, to what stands for the other, but only after it has been rearranged.  The
relation is kept by all that the search for conflicts does to lists.
-/

/-- The second list is related to the first one entry by entry, but for the order of its entries. -/
def Shuffled (R : α → β → Prop) (as : List α) (bs : List β) : Prop :=
  ∃ middle, List.Forall₂ R as middle ∧ middle.Perm bs

namespace Shuffled

variable {γ δ : Type} {T : γ → δ → Prop} {as' : List α} {bs' before after : List β}

theorem nil : Shuffled R [] [] := ⟨[], .nil, .refl _⟩

theorem append (h : Shuffled R as bs) (h' : Shuffled R as' bs') : Shuffled R (as ++ as') (bs ++ bs') := by
  obtain ⟨middle, hrelated, hperm⟩ := h
  obtain ⟨middle', hrelated', hperm'⟩ := h'
  exact ⟨middle ++ middle', List.rel_append hrelated hrelated', hperm.append hperm'⟩

/-- What is related to the first entries may stand anywhere. -/
theorem insert (h : Shuffled R as' bs') (hrest : Shuffled R as (before ++ after)) :
    Shuffled R (as' ++ as) (before ++ (bs' ++ after)) := by
  obtain ⟨middle, hrelated, hperm⟩ := h.append hrest
  refine ⟨middle, hrelated, hperm.trans ?_⟩
  rw [← List.append_assoc, ← List.append_assoc]
  exact List.perm_append_comm.append_right after

theorem filter {p : α → Bool} {q : β → Bool} (hpq : ∀ a b, R a b → p a = q b) (h : Shuffled R as bs) :
    Shuffled R (as.filter p) (bs.filter q) := by
  obtain ⟨middle, hrelated, hperm⟩ := h
  exact ⟨middle.filter q, List.rel_filter (fun a b hab => by simp only [hpq a b hab]) hrelated, hperm.filter q⟩

theorem filterMap {f : α → Option γ} {g : β → Option δ} (hfg : ∀ a b, R a b → Option.Rel T (f a) (g b))
    (h : Shuffled R as bs) : Shuffled T (as.filterMap f) (bs.filterMap g) := by
  obtain ⟨middle, hrelated, hperm⟩ := h
  exact ⟨middle.filterMap g, List.rel_filterMap (fun a b hab => hfg a b hab) hrelated, hperm.filterMap g⟩

theorem flatMap_of_forall₂ {f : α → List γ} {g : β → List δ} (hfg : ∀ a b, R a b → Shuffled T (f a) (g b))
    (h : List.Forall₂ R as bs) : Shuffled T (as.flatMap f) (bs.flatMap g) := by
  induction h with
  | nil => exact nil
  | cons hab _ ih => exact (hfg _ _ hab).append ih

theorem flatMap {f : α → List γ} {g : β → List δ} (hfg : ∀ a b, R a b → Shuffled T (f a) (g b))
    (h : Shuffled R as bs) : Shuffled T (as.flatMap f) (bs.flatMap g) := by
  obtain ⟨middle, hrelated, hperm⟩ := h
  obtain ⟨inner, hinner, hperm'⟩ := flatMap_of_forall₂ hfg hrelated
  exact ⟨inner, hinner, hperm'.trans (hperm.flatMap_right g)⟩

theorem exists_of_mem (h : Shuffled R as bs) {a : α} (ha : a ∈ as) : ∃ b ∈ bs, R a b := by
  obtain ⟨middle, hrelated, hperm⟩ := h
  obtain ⟨b, hb, hab⟩ := exists_related_of_mem hrelated ha
  exact ⟨b, hperm.mem_iff.mp hb, hab⟩

theorem exists_of_mem_right (h : Shuffled R as bs) {b : β} (hb : b ∈ bs) : ∃ a ∈ as, R a b := by
  obtain ⟨middle, hrelated, hperm⟩ := h
  exact exists_related_of_mem_right hrelated (hperm.mem_iff.mpr hb)

theorem map_perm {f : α → γ} {g : β → γ} (h : Shuffled R as bs) (hfg : ∀ a b, R a b → g b = f a) :
    (as.map f).Perm (bs.map g) := by
  obtain ⟨middle, hrelated, hperm⟩ := h
  rw [← map_eq_of_forall₂ hrelated fun a _ b hab => hfg a b hab]
  exact hperm.map g

end Shuffled

/-! ### With repetitions

For documents that say something twice.  A further entry is allowed if it is related to one that
has come up before, so the relation carries along what has come up, and an entry that looks for the
first of its kind never finds the further one.
-/

/-- The second list is related to the first one entry by entry, but for further entries in it that
are related to what has come up before.  At the start that is `seen`. -/
inductive Echoes (R : α → β → Prop) : List α → List α → List β → Prop
  | nil {seen : List α} : Echoes R seen [] []
  | next {seen as : List α} {bs : List β} {a : α} {b : β} (hab : R a b) (hrest : Echoes R (a :: seen) as bs) :
      Echoes R seen (a :: as) (b :: bs)
  | again {seen as : List α} {bs : List β} {a : α} {b : β} (hmem : a ∈ seen) (hab : R a b)
      (hrest : Echoes R seen as bs) : Echoes R seen as (b :: bs)

namespace Echoes

variable {γ δ : Type} {T : γ → δ → Prop} {seen seen' as' : List α} {bs' : List β}

theorem imp (hRS : ∀ a b, R a b → S a b) (h : Echoes R seen as bs) : Echoes S seen as bs := by
  induction h with
  | nil => exact .nil
  | next hab _ ih => exact .next (hRS _ _ hab) ih
  | again hmem hab _ ih => exact .again hmem (hRS _ _ hab) ih

theorem mono (h : Echoes R seen as bs) (hsub : seen ⊆ seen') : Echoes R seen' as bs := by
  induction h generalizing seen' with
  | nil => exact .nil
  | next hab _ ih => exact .next hab (ih (List.cons_subset_cons _ hsub))
  | again hmem hab _ ih => exact .again (hsub hmem) hab (ih hsub)

/-- What is related to something that has come up may be put in front. -/
theorem againEach (hbs : ∀ b ∈ bs', ∃ a ∈ seen, R a b) (h : Echoes R seen as bs) :
    Echoes R seen as (bs' ++ bs) := by
  induction bs' with
  | nil => exact h
  | cons b bs' ih =>
    rw [List.forall_mem_cons] at hbs
    obtain ⟨a, hmem, hab⟩ := hbs.1
    exact .again hmem hab (ih hbs.2)

theorem append (h : Echoes R seen as bs) (h' : Echoes R (as ++ seen) as' bs') :
    Echoes R seen (as ++ as') (bs ++ bs') := by
  induction h with
  | nil => exact h'
  | next hab _ ih => exact .next hab (ih (h'.mono List.perm_middle.symm.subset))
  | again hmem hab _ ih => exact .again hmem hab (ih h')

/-- Everything in the second list is related to something that is in the first or has come up. -/
theorem exists_of_mem (h : Echoes R seen as bs) {b : β} (hb : b ∈ bs) : ∃ a ∈ as ++ seen, R a b := by
  induction h with
  | nil => cases hb
  | next hab _ ih =>
    rcases List.mem_cons.mp hb with rfl | hb
    · exact ⟨_, List.mem_cons_self, hab⟩
    · obtain ⟨a, ha, hab⟩ := ih hb
      exact ⟨a, List.perm_middle.subset ha, hab⟩
  | again hmem hab _ ih =>
    rcases List.mem_cons.mp hb with rfl | hb
    · exact ⟨_, List.mem_append_right _ hmem, hab⟩
    · exact ih hb

theorem filter {p : α → Bool} {q : β → Bool} (hpq : ∀ a b, R a b → q b = p a) (h : Echoes R seen as bs) :
    Echoes R (seen.filter p) (as.filter p) (bs.filter q) := by
  induction h with
  | nil => exact .nil
  | @next _ _ _ a b hab _ ih =>
    rw [List.filter_cons] at ih
    rw [List.filter_cons, List.filter_cons, hpq a b hab]
    split
    · next hp => exact .next hab (by rwa [if_pos hp] at ih)
    · next hp => rwa [if_neg hp] at ih
  | @again _ _ _ a b hmem hab _ ih =>
    rw [List.filter_cons, hpq a b hab]
    split
    · next hp => exact .again (List.mem_filter.mpr ⟨hmem, hp⟩) hab ih
    · exact ih

theorem flatMap {f : α → List γ} {g : β → List δ} (hfg : ∀ a b, R a b → Echoes T [] (f a) (g b))
    (h : Echoes R seen as bs) : Echoes T (seen.flatMap f) (as.flatMap f) (bs.flatMap g) := by
  induction h with
  | nil => exact .nil
  | @next _ _ _ a b hab _ ih => exact ((hfg a b hab).mono (List.nil_subset _)).append ih
  | @again _ _ _ a b hmem hab _ ih =>
    refine againEach (fun d hd => ?_) ih
    obtain ⟨c, hc, hcd⟩ := (hfg a b hab).exists_of_mem hd
    rw [List.append_nil] at hc
    exact ⟨c, List.mem_flatMap.mpr ⟨a, hmem, hc⟩, hcd⟩

theorem map {f : α → γ} {g : β → γ} (hfg : ∀ a b, R a b → g b = f a) (h : Echoes R seen as bs) :
    Echoes Eq (seen.map f) (as.map f) (bs.map g) := by
  induction h with
  | nil => exact .nil
  | next hab _ ih => exact .next (hfg _ _ hab).symm ih
  | again hmem hab _ ih => exact .again (List.mem_map_of_mem hmem) (hfg _ _ hab).symm ih

/-- What is found first is related, if nothing that has come up passes the test. -/
theorem rel_find? {p : α → Bool} {q : β → Bool} (hpq : ∀ a b, R a b → q b = p a)
    (h : Echoes R seen as bs) (hseen : ∀ a ∈ seen, p a = false) : Option.Rel R (as.find? p) (bs.find? q) := by
  induction h with
  | nil => exact .none
  | @next _ _ _ a b hab _ ih =>
    rw [List.find?_cons, List.find?_cons, hpq a b hab]
    cases ha : p a with
    | true => exact .some hab
    | false => exact ih (List.forall_mem_cons.mpr ⟨ha, hseen⟩)
  | @again _ _ _ a b hmem hab _ ih =>
    rw [List.find?_cons, hpq a b hab, hseen a hmem]
    exact ih hseen

/-- Of an entry and others the ones that are new are kept once, and then the entry is not new any
more. -/
theorem eraseDups_new_cons [BEq γ] [LawfulBEq γ] (seen : List γ) (c : γ) (cs : List γ) :
    ((c :: cs).filter fun e => !seen.contains e).eraseDups
      = (if seen.contains c then [] else [c]) ++ (cs.filter fun e => !(c :: seen).contains e).eraseDups := by
  have hfilter : (cs.filter fun e => !(c :: seen).contains e)
      = (cs.filter fun e => !seen.contains e).filter fun e => !e == c := by
    rw [List.filter_filter]
    exact List.filter_congr fun e _ => by rw [List.contains_cons, Bool.not_or]
  rw [hfilter, List.filter_cons]
  cases hc : seen.contains c with
  | true =>
    -- Being new goes with being another than an entry that is not.
    have hother : ∀ e ∈ cs.filter fun e => !seen.contains e, (!e == c) = true := fun e he => by
      have hnew := (List.mem_filter.mp he).2
      cases hec : e == c with
      | false => rfl
      | true => rw [eq_of_beq hec, hc] at hnew; cases hnew
    rw [List.filter_eq_self.mpr hother]
    rfl
  | false => exact List.eraseDups_cons

/-- **Repetitions are dropped with the others.** -/
theorem eraseDups_eq [BEq γ] [LawfulBEq γ] {seen cs ds : List γ} (h : Echoes Eq seen cs ds) :
    (ds.filter fun d => !seen.contains d).eraseDups = (cs.filter fun c => !seen.contains c).eraseDups := by
  induction h with
  | nil => rfl
  | next hcd _ ih =>
    subst hcd
    rw [eraseDups_new_cons, eraseDups_new_cons, ih]
  | again hmem hcd _ ih =>
    subst hcd
    rw [List.filter_cons_of_neg (by simpa using hmem), ih]

end Echoes

end GraphSchema
