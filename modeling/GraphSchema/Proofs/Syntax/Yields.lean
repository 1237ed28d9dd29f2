/-
What readers yield.

A reader makes nothing up: what it gives comes from the tokens that it is given, and what it
leaves is the last of them.  `Yields` says what holds of the value that a reader gives, if it
gives one, when all of its tokens have a property.  The rules below follow the readers.

The property that is asked for most is that the names among the tokens are names, and the floats
are numbers.  The tokens of a document have it.
-/
import GraphSchema.Proofs.Decimal.Number
import GraphSchema.Proofs.Syntax.Lexemes
import GraphSchema.Syntax.Reader

namespace GraphSchema.Syntax

/-! ### Tokens -/

/-- A name is a name, and a float is a number. -/
def Lexeme.WellFormed : Lexeme → Prop
  | .name text => Syntax.isName text.toList = true
  | .float x => x.isNaN = false
  | _ => True

/-- If the token is a name, it is one, and if it is a float, it is a number. -/
def Token.WellFormed (token : Token) : Prop := token.lexeme.WellFormed

theorem wellFormed_of_scan {s : List Char} {scan : Scan} (h : Scan.ofText? s = some scan) :
    scan.lexeme.WellFormed := by
  cases Scan.begins_of_ofText? h with
  | block | quoted | spread | punctuator => trivial
  | name hstart rest =>
    show isName (String.ofList (_ :: _)).toList = true
    rw [String.toList_ofList, isName, Bool.and_eq_true]
    exact ⟨hstart, List.all_takeWhile⟩
  | @numeral _ _ n _ hread =>
    cases n with
    | integer => trivial
    | float => exact Decimal.Numeral.isNaN_of_read hread

/-- **The names of a document are names, and its floats are numbers.** -/
theorem wellFormed_of_tokensFrom {p : Position} {s : List Char} {tokens : List Token}
    (h : tokensFrom p s = some tokens) : ∀ token ∈ tokens, token.WellFormed := by
  induction p, s using tokensFrom.induct generalizing tokens with
  | case1 p s start hskip =>
    rw [tokensFrom_of_end hskip] at h
    obtain rfl := Option.some.inj h
    exact nofun
  | case2 p s start c more hskip hscan =>
    rw [tokensFrom_of_noScan hskip hscan] at h
    cases h
  | case3 p s start c more hskip scan hscan ih =>
    rw [tokensFrom_of_scan hskip hscan] at h
    obtain ⟨others, hothers, rfl⟩ := Option.map_eq_some_iff.mp h
    exact List.forall_mem_cons.mpr ⟨wellFormed_of_scan hscan, ih hothers⟩

/-! ### Readers

The rules for putting readers together.  They keep two things at once, what holds of the value and
that the tokens left over are among those given.
-/

/-- What holds of the value of a reader whose tokens all have the property `P`.  It leaves the
last ones of them. -/
def Yields {α : Type} (P : Token → Prop) (reader : Reader α) (Q : α → Prop) : Prop :=
  ∀ tokens a rest, (∀ token ∈ tokens, P token) → reader tokens = some (a, rest) →
    Q a ∧ rest <:+ tokens

namespace Yields

variable {α β : Type} {P P' : Token → Prop} {Q Q' : α → Prop} {R : β → Prop}

theorem mono {reader : Reader α} (h : Yields P reader Q) (hQ : ∀ a, Q a → Q' a) :
    Yields P reader Q' := fun tokens a rest htokens hread =>
  (h tokens a rest htokens hread).imp_left (hQ a)

/-- More may be known of the tokens than is asked for. -/
theorem of_imp {reader : Reader α} (h : Yields P reader Q) (hP : ∀ token, P' token → P token) :
    Yields P' reader Q := fun tokens a rest htokens hread =>
  h tokens a rest (fun token htoken => hP token (htokens token htoken)) hread

theorem pure {a : α} (h : Q a) : Yields P (pure a : Reader α) Q := by
  intro tokens b rest htokens hread
  obtain ⟨rfl, rfl⟩ := Prod.mk.inj (Option.some.inj hread)
  exact ⟨h, List.suffix_rfl⟩

theorem failure : Yields P (failure : Reader α) Q := nofun

theorem bind {reader : Reader α} {f : α → Reader β} (h : Yields P reader Q)
    (hf : ∀ a, Q a → Yields P (f a) R) : Yields P (reader >>= f) R := by
  intro tokens b rest htokens hread
  obtain ⟨⟨a, left⟩, hfirst, hsecond⟩ := Option.bind_eq_some_iff.mp hread
  obtain ⟨ha, hleft⟩ := h tokens a left htokens hfirst
  obtain ⟨hb, hrest⟩ :=
    hf a ha left b rest (fun token htoken => htokens token (hleft.mem htoken)) hsecond
  exact ⟨hb, hrest.trans hleft⟩

theorem map {reader : Reader α} {f : α → β} (h : Yields P reader Q) (hf : ∀ a, Q a → R (f a)) :
    Yields P (f <$> reader) R := by
  rw [map_eq_pure_bind]
  exact bind h fun a ha => pure (hf a ha)

/-- A reader of which nothing is to be known. -/
theorem trivially {reader : Reader α} (h : Yields P reader Q) : Yields P reader fun _ => True :=
  h.mono fun _ _ => trivial

theorem ite {c : Prop} [Decidable c] {first second : Reader α} (hfirst : c → Yields P first Q)
    (hsecond : ¬c → Yields P second Q) : Yields P (if c then first else second) Q := by
  split
  · next h => exact hfirst h
  · next h => exact hsecond h

/-! ### One token -/

theorem next : Yields Token.WellFormed Reader.next Lexeme.WellFormed := by
  intro tokens lexeme rest htokens hread
  cases tokens with
  | nil => cases hread
  | cons token tokens =>
    obtain ⟨rfl, rfl⟩ := Prod.mk.inj (Option.some.inj hread)
    exact ⟨htokens token List.mem_cons_self, List.suffix_cons token tokens⟩

/-- A position is that of a token. -/
theorem here :
    Yields P Reader.here fun position => ∃ token, P token ∧ token.position = position := by
  intro tokens position rest htokens hread
  cases tokens with
  | nil => cases hread
  | cons token tokens =>
    obtain ⟨rfl, rfl⟩ := Prod.mk.inj (Option.some.inj hread)
    exact ⟨⟨token, htokens token List.mem_cons_self, rfl⟩, List.suffix_rfl⟩

theorem nextIs (p : Lexeme → Bool) : Yields P (Reader.nextIs p) fun _ => True := by
  intro tokens found rest htokens hread
  cases tokens with
  | nil =>
    obtain ⟨-, rfl⟩ := Prod.mk.inj (Option.some.inj hread)
    exact ⟨trivial, List.suffix_rfl⟩
  | cons token tokens =>
    obtain ⟨-, rfl⟩ := Prod.mk.inj (Option.some.inj hread)
    exact ⟨trivial, List.suffix_rfl⟩

theorem accept (p : Lexeme → Bool) : Yields P (Reader.accept p) fun _ => True := by
  intro tokens found rest htokens hread
  cases tokens with
  | nil =>
    obtain ⟨-, rfl⟩ := Prod.mk.inj (Option.some.inj hread)
    exact ⟨trivial, List.suffix_rfl⟩
  | cons token tokens =>
    simp only [Reader.accept] at hread
    split at hread
    · obtain ⟨-, rfl⟩ := Prod.mk.inj (Option.some.inj hread)
      exact ⟨trivial, List.suffix_cons token tokens⟩
    · obtain ⟨-, rfl⟩ := Prod.mk.inj (Option.some.inj hread)
      exact ⟨trivial, List.suffix_rfl⟩

theorem expect (p : Lexeme → Bool) : Yields P (Reader.expect p) fun _ => True := by
  intro tokens found rest htokens hread
  cases tokens with
  | nil => cases hread
  | cons token tokens =>
    simp only [Reader.expect] at hread
    split at hread
    · obtain ⟨-, rfl⟩ := Prod.mk.inj (Option.some.inj hread)
      exact ⟨trivial, List.suffix_cons token tokens⟩
    · cases hread

theorem punctuator (p : Punctuator) : Yields P (Reader.punctuator p) fun _ => True := expect _

theorem keyword (word : String) : Yields P (Reader.keyword word) fun _ => True := expect _

theorem name : Yields Token.WellFormed Reader.name fun text => isName text.toList = true := by
  intro tokens text rest htokens hread
  unfold Reader.name at hread
  split at hread
  · obtain ⟨rfl, rfl⟩ := Prod.mk.inj (Option.some.inj hread)
    exact ⟨htokens _ List.mem_cons_self, List.suffix_cons _ _⟩
  · cases hread

theorem string? : Yields P Reader.string? fun _ => True := by
  intro tokens value rest htokens hread
  unfold Reader.string? at hread
  split at hread
  · obtain ⟨-, rfl⟩ := Prod.mk.inj (Option.some.inj hread)
    exact ⟨trivial, List.suffix_cons _ _⟩
  · obtain ⟨-, rfl⟩ := Prod.mk.inj (Option.some.inj hread)
    exact ⟨trivial, List.suffix_rfl⟩

/-! ### Many items -/

theorem many {begins : Lexeme → Bool} {item : Reader α} (h : Yields P item Q) :
    Yields P (Reader.many begins item) fun as => ∀ a ∈ as, Q a := by
  intro tokens
  induction tokens using Reader.many.induct begins item with
  | case1 =>
    intro as rest htokens hread
    rw [Reader.many] at hread
    obtain ⟨rfl, rfl⟩ := Prod.mk.inj (Option.some.inj hread)
    exact ⟨nofun, List.suffix_rfl⟩
  | case2 token tokens hbegins hitem =>
    intro as rest htokens hread
    rw [Reader.many, if_pos hbegins, hitem] at hread
    cases hread
  | case3 token tokens hbegins a left hitem hshorter ih =>
    intro as rest htokens hread
    rw [Reader.many, if_pos hbegins, hitem] at hread
    simp only [dif_pos hshorter] at hread
    obtain ⟨⟨more, last⟩, hmore, heq⟩ := Option.map_eq_some_iff.mp hread
    obtain ⟨rfl, rfl⟩ := Prod.mk.inj heq
    obtain ⟨ha, hleft⟩ := h _ a left htokens hitem
    obtain ⟨hothers, hlast⟩ :=
      ih more last (fun token htoken => htokens token (hleft.mem htoken)) hmore
    exact ⟨List.forall_mem_cons.mpr ⟨ha, hothers⟩, hlast.trans hleft⟩
  | case4 token tokens hbegins a left hitem hshorter =>
    intro as rest htokens hread
    rw [Reader.many, if_pos hbegins, hitem] at hread
    simp only [dif_neg hshorter] at hread
    cases hread
  | case5 token tokens hbegins =>
    intro as rest htokens hread
    rw [Reader.many, if_neg hbegins] at hread
    obtain ⟨rfl, rfl⟩ := Prod.mk.inj (Option.some.inj hread)
    exact ⟨nofun, List.suffix_rfl⟩

theorem manyUntil {closing : Punctuator} {item : Reader α} (h : Yields P item Q) :
    Yields P (Reader.manyUntil closing item) fun as => ∀ a ∈ as, Q a :=
  bind (many h) fun _ has => bind (punctuator closing) fun _ _ => pure has

theorem someUntil {closing : Punctuator} {item : Reader α} (h : Yields P item Q) :
    Yields P (Reader.someUntil closing item) fun as => ∀ a ∈ as, Q a :=
  bind (manyUntil h) fun _ has => ite (fun _ => failure) fun _ => pure has

theorem separated {separator : Punctuator} {item : Reader α} (h : Yields P item Q) :
    Yields P (Reader.separated separator item) fun as => ∀ a ∈ as, Q a :=
  bind h fun _ hfirst =>
    bind (many (bind (punctuator separator) fun _ _ => h)) fun _ hothers =>
      pure (List.forall_mem_cons.mpr ⟨hfirst, hothers⟩)

/-- What is opened is read with one level of room less. -/
theorem ifOpened {opening : Punctuator} {inner : Nat → Reader (List α)} {room : Nat}
    (h : ∀ less, room = less + 1 → Yields P (inner less) fun as => ∀ a ∈ as, Q a) :
    Yields P (Reader.ifOpened opening inner room) fun as => ∀ a ∈ as, Q a := by
  cases room with
  | zero => exact bind (nextIs _) fun _ _ => ite (fun _ => failure) fun _ => pure nofun
  | succ room => exact bind (accept _) fun _ _ => ite (fun _ => h room rfl) fun _ => pure nofun

/-- What a whole text is read as, whose tokens have the property. -/
theorem of_readAll_of {reader : Reader α} (h : Yields P reader Q) {s : String} {a : α}
    (hread : Reader.readAll reader s = some a)
    (hP : ∀ tokens, Syntax.tokens s = some tokens → ∀ token ∈ tokens, P token) : Q a := by
  obtain ⟨tokens, htokens, hread⟩ := Option.bind_eq_some_iff.mp hread
  obtain ⟨⟨b, rest⟩, hfirst, hread⟩ := Option.bind_eq_some_iff.mp hread
  have hb := (h tokens b rest (hP tokens htokens) hfirst).1
  dsimp only at hread
  split at hread
  · obtain rfl := Option.some.inj hread
    exact hb
  · cases hread

theorem of_readAll {reader : Reader α} (h : Yields Token.WellFormed reader Q) {s : String} {a : α}
    (hread : Reader.readAll reader s = some a) : Q a :=
  h.of_readAll_of hread fun _ htokens => wellFormed_of_tokensFrom htokens

end Yields

end GraphSchema.Syntax
