/-
Steps that can fail, one after the other.

A chain of steps gives a result exactly if every step gives one.

Loading and building are such chains.  A chain that gives a result is taken apart with
`bind_eq_ok`, and what holds at its end is concluded with `of_foldlM_eq_ok` from what each
step keeps.
-/
namespace GraphSchema

variable {ε α β : Type}

theorem bind_eq_ok {x : Except ε α} {f : α → Except ε β} {b : β} :
    (x >>= f) = .ok b ↔ ∃ a, x = .ok a ∧ f a = .ok b := by
  cases x with
  | error e =>
    constructor
    · intro h
      cases h
    · intro ⟨a, ha, _⟩
      cases ha
  | ok a =>
    constructor
    · exact fun h => ⟨a, rfl, h⟩
    · intro ⟨a', ha, h⟩
      obtain rfl := Except.ok.inj ha
      exact h

theorem exists_ok {x : Except ε α} (h : x.isOk = true) : ∃ a, x = .ok a := by
  cases x with
  | error e => cases h
  | ok a => exact ⟨a, rfl⟩

theorem forM_eq_ok_iff {f : α → Except ε Unit} {items : List α} :
    items.forM f = .ok () ↔ ∀ a ∈ items, f a = .ok () := by
  induction items with
  | nil => exact ⟨fun _ => nofun, fun _ => rfl⟩
  | cons a items ih =>
    rw [List.forall_mem_cons, ← ih]
    show (f a >>= fun _ => items.forM f) = .ok () ↔ _
    rw [bind_eq_ok]
    exact ⟨fun ⟨_, ha, hrest⟩ => ⟨ha, hrest⟩, fun ⟨ha, hrest⟩ => ⟨(), ha, hrest⟩⟩

theorem foldlM_nil_eq_ok_iff {f : β → α → Except ε β} {b b' : β} :
    ([] : List α).foldlM f b = .ok b' ↔ b' = b :=
  ⟨fun h => (Except.ok.inj h).symm, fun h => congrArg Except.ok h.symm⟩

/-- What every step keeps holds at the end. -/
theorem of_foldlM_eq_ok {P : β → Prop} {f : β → α → Except ε β} {items : List α} {b b' : β}
    (h : items.foldlM f b = .ok b') (hb : P b)
    (hstep : ∀ a ∈ items, ∀ b b', P b → f b a = .ok b' → P b') : P b' := by
  induction items generalizing b with
  | nil =>
    obtain rfl := Except.ok.inj h
    exact hb
  | cons a items ih =>
    rw [List.foldlM_cons] at h
    obtain ⟨first, hfirst, hrest⟩ := bind_eq_ok.mp h
    rw [List.forall_mem_cons] at hstep
    exact ih hrest (hstep.1 b first hb hfirst) hstep.2

end GraphSchema
