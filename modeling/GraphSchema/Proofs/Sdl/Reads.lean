/-
Reading what is laid out.

`Reads` says that a reader takes exactly the given words off the front, whatever stands behind
them as long as the lexeme that follows is an admissible one, and that what it gives is as
expected.  The rules below follow the readers: one for each that takes a single token, and one
for each way to put readers together.

Most rules are about a reader that goes on (`bind`), so that the proof for a definition is one
rule for each of its words, in their order.
-/
import GraphSchema.Proofs.Sdl.Layout
import GraphSchema.Syntax.Reader

namespace GraphSchema.Sdl

open Syntax

variable {source : Source} {α β : Type}

/-- The lexeme that comes next: the first of the words, or else what follows them. -/
def nextLexeme (words : List Word) (following : Option Lexeme) : Option Lexeme :=
  (words.head?.map Word.lexeme).or following

/-- The reader takes the words, if what follows them is admissible. -/
def Reads (source : Source) (reader : Reader α) (words : List Word)
    (follow : Option Lexeme → Prop) (Q : α → Prop) : Prop :=
  ∀ tokens rest : List Token, List.Forall₂ (Placed source) words tokens →
    follow (rest.head?.map Token.lexeme) → ∃ a, reader (tokens ++ rest) = some (a, rest) ∧ Q a

/-- Nothing that satisfies the predicate comes next. -/
def NotNext (p : Lexeme → Bool) (next : Option Lexeme) : Prop := ∀ lexeme ∈ next, p lexeme = false

theorem exists_of_forall₂_append {γ δ : Type} {P : γ → δ → Prop} {front back : List γ} {all : List δ}
    (h : List.Forall₂ P (front ++ back) all) :
    ∃ front' back', all = front' ++ back' ∧ List.Forall₂ P front front' ∧
      List.Forall₂ P back back' := by
  induction front generalizing all with
  | nil => exact ⟨[], all, rfl, .nil, h⟩
  | cons a front ih =>
    cases h with
    | cons hab h =>
      obtain ⟨front', back', rfl, hfront, hback⟩ := ih h
      exact ⟨_ :: front', back', rfl, .cons hab hfront, hback⟩

theorem lexeme_head? {words : List Word} {tokens : List Token}
    (h : List.Forall₂ (Placed source) words tokens) (rest : List Token) :
    (tokens ++ rest).head?.map Token.lexeme
      = nextLexeme words (rest.head?.map Token.lexeme) := by
  cases h with
  | nil => rfl
  | cons hplaced _ => exact congrArg some hplaced.lexeme

/-- Items, each with whether it is the first. -/
def marked {γ : Type} : List γ → List (Bool × γ)
  | [] => []
  | first :: others => (true, first) :: others.map fun other => (false, other)

theorem map_snd_marked {γ : Type} (items : List γ) : (marked items).map Prod.snd = items := by
  cases items with
  | nil => rfl
  | cons first others =>
    rw [marked, List.map_cons, List.map_map]
    exact congrArg (first :: ·) (List.map_id others)

theorem snd_mem_of_mem_marked {γ : Type} {items : List γ} {x : Bool × γ} (h : x ∈ marked items) :
    x.2 ∈ items := by
  rw [← map_snd_marked items]
  exact List.mem_map_of_mem h

/-- What is read of marked items, if each of them gives one value only. -/
theorem eq_map_of_forall₂_marked {γ δ : Type} {f : γ → δ} {items : List γ} {as : List δ}
    (h : List.Forall₂ (fun x a => a = f x.2) (marked items) as) : as = items.map f := by
  rw [← map_snd_marked items, List.map_map]
  generalize marked items = all at h
  induction h with
  | nil => rfl
  | cons ha _ ih => rw [List.map_cons, ha, ih]; rfl

namespace Reads

variable {follow follow' : Option Lexeme → Prop} {words more : List Word} {Q Q' : α → Prop}
  {R : β → Prop}

theorem mono {reader : Reader α} (h : Reads source reader words follow Q)
    (hfollow : ∀ next, follow' next → follow next) (hQ : ∀ a, Q a → Q' a) :
    Reads source reader words follow' Q' := by
  intro tokens rest hplaced hnext
  obtain ⟨a, hread, ha⟩ := h tokens rest hplaced (hfollow _ hnext)
  exact ⟨a, hread, hQ a ha⟩

theorem pure {a : α} (h : Q a) : Reads source (pure a) [] follow Q := by
  intro tokens rest hplaced _
  cases hplaced
  exact ⟨a, rfl, h⟩

theorem bind_apply {reader : Reader α} {f : α → Reader β} {tokens rest : List Token} {a : α}
    (h : reader tokens = some (a, rest)) : (reader >>= f) tokens = f a rest := by
  show (reader tokens).bind (fun p => f p.1 p.2) = _
  rw [h]
  rfl

/-- One reader after the other. -/
theorem bind {reader : Reader α} {f : α → Reader β} (h : Reads source reader words follow Q)
    (hf : ∀ a, Q a → Reads source (f a) more follow' R)
    (hfollow : ∀ next, follow' next → follow (nextLexeme more next)) :
    Reads source (reader >>= f) (words ++ more) follow' R := by
  intro tokens rest hplaced hnext
  obtain ⟨front, back, rfl, hfront, hback⟩ := exists_of_forall₂_append hplaced
  have hstop : follow ((back ++ rest).head?.map Token.lexeme) := by
    rw [lexeme_head? hback]
    exact hfollow _ hnext
  obtain ⟨a, hread, ha⟩ := h front (back ++ rest) hfront hstop
  obtain ⟨b, hread', hb⟩ := hf a ha back rest hback hnext
  refine ⟨b, ?_, hb⟩
  rw [List.append_assoc, bind_apply hread, hread']

/-- The last reader that takes a word. -/
theorem bind_last {reader : Reader α} {f : α → Reader β} (h : Reads source reader words follow Q)
    (hf : ∀ a, Q a → Reads source (f a) [] follow R) :
    Reads source (reader >>= f) words follow R := by
  rw [← List.append_nil words]
  exact bind h hf fun _ hnext => hnext

/-- A reader whose value is changed. -/
theorem map {reader : Reader α} {f : α → β} (h : Reads source reader words follow Q)
    (hf : ∀ a, Q a → R (f a)) : Reads source (f <$> reader) words follow R := by
  intro tokens rest hplaced hnext
  obtain ⟨a, hread, ha⟩ := h tokens rest hplaced hnext
  refine ⟨f a, ?_, hf a ha⟩
  show StateT.map f reader (tokens ++ rest) = _
  rw [StateT.map, hread]
  rfl

/-! ### One token

Rules that take the first word, and rules that look at it and leave it.  What may follow has to be
known for the latter, because a reader that looks for more looks at the next lexeme.
-/

/-- A reader that takes a token for what its lexeme is. -/
theorem take_bind {reader : Reader α} {a : α} {gap : Gap} {lexeme : Lexeme} {f : α → Reader β}
    (htake : ∀ token tokens, token.lexeme = lexeme → reader (token :: tokens) = some (a, tokens))
    (h : Reads source (f a) more follow R) :
    Reads source (reader >>= f) (⟨gap, lexeme⟩ :: more) follow R := by
  intro tokens rest hplaced hnext
  cases hplaced with
  | @cons _ token _ tokens htoken hplaced =>
    obtain ⟨b, hread, hb⟩ := h tokens rest hplaced hnext
    exact ⟨b, (bind_apply (htake token _ htoken.lexeme)).trans hread, hb⟩

/-- A reader that looks at what comes next and leaves it where it is. -/
theorem look_bind {reader : Reader α} {a : α} {f : α → Reader β}
    (hlook : ∀ next, follow next → ∀ tokens : List Token,
      tokens.head?.map Token.lexeme = nextLexeme words next → reader tokens = some (a, tokens))
    (h : Reads source (f a) words follow R) : Reads source (reader >>= f) words follow R := by
  intro tokens rest hplaced hnext
  obtain ⟨b, hread, hb⟩ := h tokens rest hplaced hnext
  exact ⟨b, (bind_apply (hlook _ hnext _ (lexeme_head? hplaced rest))).trans hread, hb⟩

theorem next_bind {gap : Gap} {lexeme : Lexeme} {f : Lexeme → Reader β}
    (h : Reads source (f lexeme) more follow R) :
    Reads source (Reader.next >>= f) (⟨gap, lexeme⟩ :: more) follow R := by
  refine take_bind (fun token tokens hlexeme => ?_) h
  rw [← hlexeme]
  rfl

theorem expect_bind {p : Lexeme → Bool} {gap : Gap} {lexeme : Lexeme} (hp : p lexeme = true)
    {f : Unit → Reader β} (h : Reads source (f ()) more follow R) :
    Reads source (Reader.expect p >>= f) (⟨gap, lexeme⟩ :: more) follow R := by
  refine take_bind (fun token tokens hlexeme => ?_) h
  rw [← hlexeme] at hp
  exact if_pos hp

theorem punctuator_bind {p : Punctuator} {gap : Gap} {f : Unit → Reader β}
    (h : Reads source (f ()) more follow R) :
    Reads source (Reader.punctuator p >>= f) (⟨gap, .punctuator p⟩ :: more) follow R :=
  expect_bind (beq_self_eq_true p) h

theorem keyword_bind {word : String} {gap : Gap} {f : Unit → Reader β}
    (h : Reads source (f ()) more follow R) :
    Reads source (Reader.keyword word >>= f) (⟨gap, .name word⟩ :: more) follow R :=
  expect_bind (beq_self_eq_true word) h

theorem name_bind {text : String} {gap : Gap} {f : String → Reader β}
    (h : Reads source (f text) more follow R) :
    Reads source (Reader.name >>= f) (⟨gap, .name text⟩ :: more) follow R := by
  refine take_bind (fun token tokens hlexeme => ?_) h
  obtain ⟨position, lexeme⟩ := token
  obtain rfl : lexeme = .name text := hlexeme
  rfl

/-- The position of a word has the word's comment above it. -/
theorem here_bind {word : Word} {f : Position → Reader β}
    (h : ∀ position, source.commentAbove position = word.gap.description →
      Reads source (f position) (word :: more) follow R) :
    Reads source (Reader.here >>= f) (word :: more) follow R := by
  intro tokens rest hplaced hnext
  cases hplaced with
  | @cons _ token _ tokens htoken hplaced =>
    obtain ⟨b, hread, hb⟩ :=
      h token.position htoken.comment (token :: tokens) rest (.cons htoken hplaced) hnext
    refine ⟨b, ?_, hb⟩
    have htake : Reader.here (token :: tokens ++ rest)
        = some (token.position, token :: tokens ++ rest) := rfl
    rw [bind_apply htake, hread]

theorem accept_bind_of_true {p : Lexeme → Bool} {gap : Gap} {lexeme : Lexeme}
    (hp : p lexeme = true) {f : Bool → Reader β} (h : Reads source (f true) more follow R) :
    Reads source (Reader.accept p >>= f) (⟨gap, lexeme⟩ :: more) follow R := by
  refine take_bind (fun token tokens hlexeme => ?_) h
  rw [← hlexeme] at hp
  exact if_pos hp

theorem accept_eq_of_notNext {p : Lexeme → Bool} {tokens : List Token}
    (h : NotNext p (tokens.head?.map Token.lexeme)) :
    Reader.accept p tokens = some (false, tokens) := by
  cases tokens with
  | nil => rfl
  | cons token tokens =>
    have hlexeme : p token.lexeme = false := h token.lexeme rfl
    show (if p token.lexeme = true then _ else _) = _
    rw [hlexeme, if_neg Bool.false_ne_true]

theorem accept_bind_of_false {p : Lexeme → Bool} {f : Bool → Reader β}
    (hfollow : ∀ next, follow next → NotNext p (nextLexeme words next))
    (h : Reads source (f false) words follow R) :
    Reads source (Reader.accept p >>= f) words follow R := by
  refine look_bind (fun next hnext tokens hhead => accept_eq_of_notNext ?_) h
  rw [hhead]
  exact hfollow next hnext

theorem nextIs_eq_of_notNext {p : Lexeme → Bool} {tokens : List Token}
    (h : NotNext p (tokens.head?.map Token.lexeme)) :
    Reader.nextIs p tokens = some (false, tokens) := by
  cases tokens with
  | nil => rfl
  | cons token tokens =>
    have hlexeme : p token.lexeme = false := h token.lexeme rfl
    show some (p token.lexeme, token :: tokens) = _
    rw [hlexeme]

theorem nextIs_bind_of_false {p : Lexeme → Bool} {f : Bool → Reader β}
    (hfollow : ∀ next, follow next → NotNext p (nextLexeme words next))
    (h : Reads source (f false) words follow R) :
    Reads source (Reader.nextIs p >>= f) words follow R := by
  refine look_bind (fun next hnext tokens hhead => nextIs_eq_of_notNext ?_) h
  rw [hhead]
  exact hfollow next hnext

theorem nextIs_bind_of_true {p : Lexeme → Bool} {gap : Gap} {lexeme : Lexeme}
    (hp : p lexeme = true) {f : Bool → Reader β}
    (h : Reads source (f true) (⟨gap, lexeme⟩ :: more) follow R) :
    Reads source (Reader.nextIs p >>= f) (⟨gap, lexeme⟩ :: more) follow R := by
  refine look_bind (fun next _ tokens hhead => ?_) h
  cases tokens with
  | nil => cases hhead
  | cons token tokens =>
    have hlexeme : token.lexeme = lexeme := Option.some.inj hhead
    show some (p token.lexeme, _) = _
    rw [hlexeme, hp]

/-- There is no string in front of a word that is none. -/
theorem string?_bind {gap : Gap} {lexeme : Lexeme} (hlexeme : ∀ value, lexeme ≠ .string value)
    {f : Option String → Reader β} (h : Reads source (f none) (⟨gap, lexeme⟩ :: more) follow R) :
    Reads source (Reader.string? >>= f) (⟨gap, lexeme⟩ :: more) follow R := by
  refine look_bind (fun next _ tokens hhead => ?_) h
  cases tokens with
  | nil => rfl
  | cons token tokens =>
    obtain ⟨position, lexeme'⟩ := token
    have hsame : lexeme' = lexeme := Option.some.inj hhead
    cases lexeme' with
    | string value => exact absurd hsame.symm (hlexeme value)
    | _ => rfl

/-! ### Many items

Repetition is followed by a lexeme that no item begins with.  For items between marks the closing
one is such a lexeme.
-/

/-- No item is read if none begins. -/
theorem many_nil {begins : Lexeme → Bool} {item : Reader α} :
    Reads source (Reader.many begins item) [] (NotNext begins) (· = []) := by
  intro tokens rest hplaced hnext
  cases hplaced
  refine ⟨[], ?_, rfl⟩
  show Reader.many begins item rest = _
  cases rest with
  | nil => rw [Reader.many]
  | cons token rest =>
    have hlexeme : begins token.lexeme = false := hnext token.lexeme rfl
    rw [Reader.many, hlexeme, if_neg Bool.false_ne_true]

/-- Items one after the other, read as long as one begins.  Each of them takes a word at
least; what may follow an item is the next item's first word, or what follows them all. -/
theorem many {γ : Type} {begins : Lexeme → Bool} {item : Reader α} {items : List γ}
    {text : γ → List Word} {S : γ → α → Prop}
    (hbegins : ∀ x ∈ items, ∃ word rest, text x = word :: rest ∧ begins word.lexeme = true ∧
      follow (some word.lexeme))
    (hitem : ∀ x ∈ items, Reads source item (text x) follow (S x)) :
    Reads source (Reader.many begins item) (items.flatMap text)
      (fun next => NotNext begins next ∧ follow next) (List.Forall₂ S items) := by
  induction items with
  | nil =>
    refine many_nil.mono (fun _ hnext => hnext.1) fun as has => ?_
    rw [has]
    exact .nil
  | cons x items ih =>
    rw [List.forall_mem_cons] at hbegins hitem
    obtain ⟨⟨word, tail, htext, hword, -⟩, hbegins⟩ := hbegins
    intro tokens rest hplaced hnext
    rw [List.flatMap_cons] at hplaced
    obtain ⟨front, back, rfl, hfront, hback⟩ := exists_of_forall₂_append hplaced
    obtain ⟨as, hmany, has⟩ := ih hbegins hitem.2 back rest hback hnext
    have hstop : follow ((back ++ rest).head?.map Token.lexeme) := by
      rw [lexeme_head? hback]
      cases items with
      | nil => exact hnext.2
      | cons y items =>
        obtain ⟨word', tail', htext', -, hfirst⟩ := hbegins y List.mem_cons_self
        rw [List.flatMap_cons, htext']
        exact hfirst
    obtain ⟨a, hread, ha⟩ := hitem.1 front (back ++ rest) hfront hstop
    refine ⟨a :: as, ?_, .cons ha has⟩
    rw [htext] at hfront
    cases hfront with
    | @cons _ token _ front htoken hfront =>
      have htokenBegins : begins token.lexeme = true := by
        rw [htoken.lexeme]
        exact hword
      have hshorter : (back ++ rest).length < (token :: (front ++ (back ++ rest))).length := by
        simp only [List.length_cons, List.length_append]
        omega
      rw [List.cons_append] at hread
      rw [List.append_assoc, List.cons_append, Reader.many, if_pos htokenBegins]
      simp only [hread, dif_pos hshorter, hmany]
      rfl

/-- One item alone. -/
theorem many_single {begins : Lexeme → Bool} {item : Reader α} {word : Word}
    (hbegins : begins word.lexeme = true) (hfirst : follow (some word.lexeme))
    (hitem : Reads source item (word :: more) follow Q) :
    Reads source (Reader.many begins item) (word :: more)
      (fun next => NotNext begins next ∧ follow next) (fun as => ∃ a, as = [a] ∧ Q a) := by
  have hmany : Reads source (Reader.many begins item) ([()].flatMap fun _ => word :: more)
      (fun next => NotNext begins next ∧ follow next) (List.Forall₂ (fun _ => Q) [()]) :=
    many (fun _ _ => ⟨word, more, rfl, hbegins, hfirst⟩) fun _ _ => hitem
  rw [List.flatMap_singleton] at hmany
  refine hmany.mono (fun _ h => h) fun as has => ?_
  cases has with
  | cons ha has =>
    cases has
    exact ⟨_, rfl, ha⟩

/-- Items up to a closing punctuator, which follows an item as well as another one does. -/
theorem manyUntil {γ : Type} {closing : Punctuator} {item : Reader α} {items : List γ}
    {text : γ → List Word} {S : γ → α → Prop} {gap : Gap}
    (hbegins : ∀ x ∈ items, ∃ word rest, text x = word :: rest ∧
      word.lexeme.isPunctuator closing = false ∧ follow (some word.lexeme))
    (hclosing : follow (some (.punctuator closing)))
    (hitem : ∀ x ∈ items, Reads source item (text x) follow (S x)) :
    Reads source (Reader.manyUntil closing item)
      (items.flatMap text ++ [⟨gap, .punctuator closing⟩]) (fun _ => True)
      (List.Forall₂ S items) := by
  refine bind (many ?_ hitem) (fun as has => ?_) ?_
  · intro x hx
    obtain ⟨word, rest, htext, hword, hfirst⟩ := hbegins x hx
    exact ⟨word, rest, htext, by rw [hword]; rfl, hfirst⟩
  · exact punctuator_bind (pure has)
  · intro next _
    refine ⟨?_, hclosing⟩
    intro lexeme hlexeme
    obtain rfl := Option.some.inj hlexeme
    show (!(closing == closing)) = false
    rw [beq_self_eq_true]
    rfl

theorem someUntil {γ : Type} {closing : Punctuator} {item : Reader α} {items : List γ}
    {text : γ → List Word} {S : γ → α → Prop} {gap : Gap} (hne : items ≠ [])
    (hbegins : ∀ x ∈ items, ∃ word rest, text x = word :: rest ∧
      word.lexeme.isPunctuator closing = false ∧ follow (some word.lexeme))
    (hclosing : follow (some (.punctuator closing)))
    (hitem : ∀ x ∈ items, Reads source item (text x) follow (S x)) :
    Reads source (Reader.someUntil closing item)
      (items.flatMap text ++ [⟨gap, .punctuator closing⟩]) (fun _ => True)
      (List.Forall₂ S items) := by
  refine bind_last (manyUntil hbegins hclosing hitem) fun as has => ?_
  have hnonempty : as.isEmpty = false := by
    cases has with
    | nil => exact absurd rfl hne
    | cons _ _ => rfl
  rw [hnonempty, if_neg Bool.false_ne_true]
  exact pure has

theorem someUntil_single {closing : Punctuator} {item : Reader α} {word : Word} {gap : Gap}
    (hword : word.lexeme.isPunctuator closing = false) (hfirst : follow (some word.lexeme))
    (hclosing : follow (some (.punctuator closing)))
    (hitem : Reads source item (word :: more) follow Q) :
    Reads source (Reader.someUntil closing item) (word :: (more ++ [⟨gap, .punctuator closing⟩]))
      (fun _ => True) (fun as => ∃ a, as = [a] ∧ Q a) := by
  have hsome : Reads source (Reader.someUntil closing item)
      ([()].flatMap (fun _ => word :: more) ++ [⟨gap, .punctuator closing⟩]) (fun _ => True)
      (List.Forall₂ (fun _ => Q) [()]) :=
    someUntil (List.cons_ne_nil _ _) (fun _ _ => ⟨word, more, rfl, hword, hfirst⟩) hclosing
      fun _ _ => hitem
  rw [List.flatMap_singleton] at hsome
  refine hsome.mono (fun _ h => h) fun as has => ?_
  cases has with
  | cons ha has =>
    cases has
    exact ⟨_, rfl, ha⟩

/-- Items that are written differently if they come first. -/
theorem someMarked {γ : Type} {closing : Punctuator} {item : Reader α} {items : List γ}
    {text : Bool × γ → List Word} {S : γ → α → Prop} {gap : Gap} (hne : items ≠ [])
    (hbegins : ∀ x ∈ marked items, ∃ word rest, text x = word :: rest ∧
      word.lexeme.isPunctuator closing = false ∧ follow (some word.lexeme))
    (hclosing : follow (some (.punctuator closing)))
    (hitem : ∀ x ∈ marked items, Reads source item (text x) follow (S x.2)) :
    Reads source (Reader.someUntil closing item)
      ((marked items).flatMap text ++ [⟨gap, .punctuator closing⟩]) (fun _ => True)
      (List.Forall₂ S items) := by
  have hmarked : marked items ≠ [] := by
    intro heq
    refine hne ?_
    rw [← map_snd_marked items, heq]
    rfl
  refine (someUntil hmarked hbegins hclosing hitem).mono (fun _ h => h) fun as has => ?_
  rw [← map_snd_marked items, List.forall₂_map_left_iff]
  exact has

/-- What an opening punctuator announces is read with one level of room less. -/
theorem ifOpened {opening : Punctuator} {inner : Nat → Reader (List α)} {room : Nat} {gap : Gap}
    {Q : List α → Prop} (h : Reads source (inner room) words follow Q) :
    Reads source (Reader.ifOpened opening inner (room + 1)) (⟨gap, .punctuator opening⟩ :: words)
      follow Q := by
  refine accept_bind_of_true (beq_self_eq_true opening) ?_
  exact h

/-- Nothing is read if nothing is opened. -/
theorem ifOpened_nil {opening : Punctuator} {inner : Nat → Reader (List α)} {room : Nat}
    {Q : List α → Prop} (h : Q []) :
    Reads source (Reader.ifOpened opening inner room) []
      (NotNext (Lexeme.isPunctuator opening)) Q := by
  cases room with
  | zero => exact nextIs_bind_of_false (fun _ hnext => hnext) (pure h)
  | succ room => exact accept_bind_of_false (fun _ hnext => hnext) (pure h)

/-- Items between an opening and a closing punctuator, both of which are left out with them. -/
theorem ifMarked {γ : Type} {opening closing : Punctuator} {item : Nat → Reader α} {room : Nat} {items : List γ}
    {text : Bool × γ → List Word} {S : γ → α → Prop} {before behind : Gap}
    (hbegins : ∀ x ∈ marked items, ∃ word rest, text x = word :: rest ∧
      word.lexeme.isPunctuator closing = false ∧ follow (some word.lexeme))
    (hclosing : follow (some (.punctuator closing)))
    (hitem : ∀ x ∈ marked items, Reads source (item room) (text x) follow (S x.2)) :
    Reads source (Reader.ifOpened opening (fun room => Reader.someUntil closing (item room)) (room + 1))
      (if items.isEmpty then []
        else ⟨before, .punctuator opening⟩ :: ((marked items).flatMap text ++ [⟨behind, .punctuator closing⟩]))
      (NotNext (Lexeme.isPunctuator opening)) (List.Forall₂ S items) := by
  cases items with
  | nil => exact ifOpened_nil .nil
  | cons first others =>
    refine (ifOpened ?_).mono (fun _ _ => trivial) fun _ hread => hread
    exact someMarked (List.cons_ne_nil first others) hbegins hclosing hitem

end Reads

end GraphSchema.Sdl
