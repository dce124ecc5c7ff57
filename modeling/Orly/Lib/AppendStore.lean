import Mathlib.Data.List.Basic
import Mathlib.Order.Basic

/-! Append-only stores, and reads of them that run on fuel.

An append-only store hands out an offset for each value proposed to it and reads
every offset it handed out back, unchanged by later proposals. Nothing is said about
how offsets are chosen (fresh, or shared between equal values), only that a read
once answered keeps its answer. `Extends s s'` is that relation between two states
of the store; it is a preorder, and a proposal extends the state it is made in.

A decoder that follows offsets through the store is written with fuel. Its two
facts are monotone in their own way: more fuel never changes an answer already
given (`FuelMono`), and a larger store never changes one either (the store-side
frame lemma each decoder proves from `Extends`). -/
namespace AppendStore

/-- A store of values `ν` in states `σ`: `propose` adds a value and returns its
offset, `pin` reads an offset. -/
structure Store (σ ν : Type) where
  propose : σ → ν → σ × Nat
  pin : σ → Nat → Option ν
  pin_propose : ∀ s v, pin (propose s v).1 (propose s v).2 = some v
  pin_of_propose : ∀ s v o w, pin s o = some w → pin (propose s v).1 o = some w

namespace Store

variable {σ ν : Type} (A : Store σ ν)

/-- Every offset that reads in `s` reads the same in `s'`. -/
def Extends (s s' : σ) : Prop := ∀ o w, A.pin s o = some w → A.pin s' o = some w

variable {A} {s s' s'' : σ}

@[refl] theorem Extends.refl (s : σ) : A.Extends s s := fun _ _ read => read

@[trans] theorem Extends.trans (first : A.Extends s s') (second : A.Extends s' s'') :
    A.Extends s s'' := fun o w read => second o w (first o w read)

variable (A) in
/-- A proposal adds at most the one value it proposes, at the offset it hands out: every
other offset reads after it as it read before. -/
def ProposesOne : Prop :=
  ∀ s v o w, A.pin (A.propose s v).1 o = some w → A.pin s o = some w ∨ (o = (A.propose s v).2 ∧ w = v)

theorem Extends.pin {o : Nat} {w : ν} (grown : A.Extends s s') (read : A.pin s o = some w) :
    A.pin s' o = some w := grown o w read

theorem extends_propose (s : σ) (v : ν) : A.Extends s (A.propose s v).1 :=
  fun o w read => A.pin_of_propose s v o w read

/-- A value proposed in `s` reads back in every extension of the state it left. -/
theorem pin_propose_of_extends {v : ν} (grown : A.Extends (A.propose s v).1 s') :
    A.pin s' (A.propose s v).2 = some v :=
  grown.pin (A.pin_propose s v)

variable (A)

/-- `f` answers `x` in every extension of `s`, from some fuel on. This is how a
decoder that follows offsets reads back what was stored: what it reads cannot be
changed by later proposals, and more fuel changes nothing once it has answered. -/
def Settles {β : Type} (f : σ → Nat → Option β) (s : σ) (x : β) : Prop :=
  ∃ N, ∀ s', A.Extends s s' → ∀ n, N ≤ n → f s' n = some x

variable {A} {β γ δ : Type} {f : σ → Nat → Option β} {g : σ → Nat → Option γ}
  {k : σ → Nat → Option δ} {x x' : β} {y : γ} {z : δ}

theorem Settles.mono (settles : A.Settles f s x) (grown : A.Extends s s') : A.Settles f s' x := by
  obtain ⟨N, answers⟩ := settles
  exact ⟨N, fun s'' grown' n enough => answers s'' (grown.trans grown') n enough⟩

/-- An answer that needs no fuel. -/
theorem Settles.of_forall (answers : ∀ s', A.Extends s s' → ∀ n, f s' n = some x) :
    A.Settles f s x :=
  ⟨0, fun s' grown n _ => answers s' grown n⟩

/-- An answer that needs one unit of fuel. -/
theorem Settles.of_succ (answers : ∀ s', A.Extends s s' → ∀ n, f s' (n + 1) = some x) :
    A.Settles f s x := by
  refine ⟨1, fun s' grown n enough => ?_⟩
  obtain ⟨m, rfl⟩ : ∃ m, n = m + 1 := ⟨n - 1, by omega⟩
  exact answers s' grown m

/-- One more unit of fuel turns a settled answer into the next one. -/
theorem Settles.step (settles : A.Settles f s x)
    (next : ∀ s' n, A.Extends s s' → f s' n = some x → g s' (n + 1) = some y) :
    A.Settles g s y := by
  obtain ⟨N, answers⟩ := settles
  refine ⟨N + 1, fun s' grown n enough => ?_⟩
  obtain ⟨m, rfl⟩ : ∃ m, n = m + 1 := ⟨n - 1, by omega⟩
  exact next s' m grown (answers s' grown m (by omega))

/-- Two settled answers settle together, from the larger of their fuels on. -/
theorem Settles.map₂ (first : A.Settles f s x) (second : A.Settles g s y)
    (combine : ∀ s' n, A.Extends s s' → f s' n = some x → g s' n = some y → k s' n = some z) :
    A.Settles k s z := by
  obtain ⟨N, firstAnswers⟩ := first
  obtain ⟨M, secondAnswers⟩ := second
  refine ⟨max N M, fun s' grown n enough => ?_⟩
  exact combine s' n grown (firstAnswers s' grown n (by omega))
    (secondAnswers s' grown n (by omega))

/-- What follows from a settled answer at the same fuel settles too. -/
theorem Settles.map (settles : A.Settles f s x)
    (next : ∀ s' n, A.Extends s s' → f s' n = some x → g s' n = some y) : A.Settles g s y := by
  obtain ⟨N, answers⟩ := settles
  exact ⟨N, fun s' grown n enough => next s' n grown (answers s' grown n enough)⟩

/-- Two settled answers, and one more unit of fuel, settle the next answer. -/
theorem Settles.step₂ (first : A.Settles f s x) (second : A.Settles g s y)
    (next : ∀ s' n, A.Extends s s' → f s' n = some x → g s' n = some y → k s' (n + 1) = some z) :
    A.Settles k s z := by
  obtain ⟨N, firstAnswers⟩ := first
  obtain ⟨M, secondAnswers⟩ := second
  refine ⟨max N M + 1, fun s' grown n enough => ?_⟩
  obtain ⟨m, rfl⟩ : ∃ m, n = m + 1 := ⟨n - 1, by omega⟩
  exact next s' m grown (firstAnswers s' grown m (by omega)) (secondAnswers s' grown m (by omega))

/-- A settled answer is, in particular, an answer in `s` itself from some fuel on. -/
theorem Settles.answers (settles : A.Settles f s x) : ∃ N, ∀ n, N ≤ n → f s n = some x := by
  obtain ⟨N, answers⟩ := settles
  exact ⟨N, answers s (Extends.refl s)⟩

/-- A decoder settles on one answer only. -/
theorem Settles.eq (first : A.Settles f s x) (second : A.Settles f s x') : x = x' := by
  obtain ⟨N, answers⟩ := first.answers
  obtain ⟨M, answers'⟩ := second.answers
  have both := (answers (max N M) (Nat.le_max_left N M)).symm.trans (answers' (max N M) (Nat.le_max_right N M))
  exact Option.some.inj both

/-- What a decoder that keeps its answers as its fuel grows answers with any fuel is what
it settles on. -/
theorem Settles.eq_of_answer (settles : A.Settles f s x)
    (mono : ∀ {n m : Nat} {y : β}, n ≤ m → f s n = some y → f s m = some y) {n : Nat} {y : β}
    (answered : f s n = some y) : y = x := by
  obtain ⟨N, answers⟩ := settles.answers
  have both := (mono (Nat.le_max_left n N) answered).symm.trans (answers (max n N) (Nat.le_max_right n N))
  exact Option.some.inj both

end Store

/-- The store that appends each value to a list and reads by position. -/
def listStore (ν : Type) : Store (List ν) ν where
  propose s v := (s ++ [v], s.length)
  pin s o := s[o]?
  pin_propose s v := by simp
  pin_of_propose s v o w read := by
    have inBounds : o < s.length := (List.getElem?_eq_some_iff.mp read).1
    rw [List.getElem?_append_left inBounds]
    exact read

theorem listStore_proposesOne (ν : Type) : (listStore ν).ProposesOne := by
  intro s v o w read
  simp only [listStore, List.getElem?_append, List.getElem?_singleton] at read ⊢
  split_ifs at read with inside here
  · exact .inl read
  · cases read
    exact .inr ⟨by omega, rfl⟩

/-- The store that interns: a value it already holds is not added again, and the offset
of its first copy is handed out. -/
def internStore (ν : Type) [DecidableEq ν] : Store (List ν) ν where
  propose s v := if v ∈ s then (s, s.idxOf v) else (s ++ [v], s.length)
  pin s o := s[o]?
  pin_propose s v := by
    split_ifs with held
    · simp [List.getElem?_idxOf held]
    · simp
  pin_of_propose s v o w read := by
    have inBounds : o < s.length := (List.getElem?_eq_some_iff.mp read).1
    split_ifs
    · exact read
    · rw [List.getElem?_append_left inBounds]
      exact read

theorem internStore_proposesOne (ν : Type) [DecidableEq ν] : (internStore ν).ProposesOne := by
  intro s v o w read
  by_cases held : v ∈ s
  · simp only [internStore, held, if_true] at read ⊢
    exact .inl read
  · have appended := (listStore_proposesOne ν) s v o w (by simpa [internStore, listStore, held] using read)
    simpa [internStore, listStore, held] using appended

/-- `g` gives every answer `f` gives: what a decoder with more fuel is to one with less. -/
def Grows {α β : Type} (f g : α → Option β) : Prop := ∀ a b, f a = some b → g a = some b

section Grows

variable {α β γ : Type} {f g : α → Option β}

theorem Grows.bind (grows : Grows f g) {x : Option α} {b : β} (answered : (x >>= f) = some b) :
    (x >>= g) = some b := by
  obtain ⟨a, hx, ha⟩ := Option.bind_eq_some_iff.mp answered
  exact Option.bind_eq_some_iff.mpr ⟨a, hx, grows a b ha⟩

theorem Grows.map_bind (grows : Grows f g) {x : Option α} {F : β → γ} {c : γ}
    (answered : (F <$> (x >>= f)) = some c) : (F <$> (x >>= g)) = some c := by
  obtain ⟨b, hb, rfl⟩ := Option.map_eq_some_iff.mp answered
  exact Option.map_eq_some_iff.mpr ⟨b, grows.bind hb, rfl⟩

theorem Grows.map (grows : Grows f g) (F : β → γ) :
    Grows (fun a => F <$> f a) (fun a => F <$> g a) := by
  intro a c answered
  obtain ⟨b, hb, rfl⟩ := Option.map_eq_some_iff.mp answered
  exact Option.map_eq_some_iff.mpr ⟨b, grows a b hb, rfl⟩

theorem Grows.then (grows : Grows f g) (k : β → Option γ) :
    Grows (fun a => f a >>= k) (fun a => g a >>= k) := by
  intro a c answered
  obtain ⟨b, hb, hk⟩ := Option.bind_eq_some_iff.mp answered
  exact Option.bind_eq_some_iff.mpr ⟨b, grows a b hb, hk⟩

theorem Grows.mapM (grows : Grows f g) : Grows (List.mapM f) (List.mapM g) := by
  intro l
  induction l with
  | nil => exact fun _ answered => answered
  | cons a rest ih =>
    intro bs answered
    simp only [List.mapM_cons, bind_pure_comp] at answered ⊢
    obtain ⟨b, hb, mapped⟩ := Option.bind_eq_some_iff.mp answered
    obtain ⟨rest', hrest, rfl⟩ := Option.map_eq_some_iff.mp mapped
    exact Option.bind_eq_some_iff.mpr
      ⟨b, grows a b hb, Option.map_eq_some_iff.mpr ⟨rest', ih rest' hrest, rfl⟩⟩

/-- A list mapped through a partial function, peeled at its head. -/
theorem mapM_cons_eq_some {a : α} {as : List α} {bs : List β}
    (mapped : (a :: as).mapM f = some bs) :
    ∃ b bs', f a = some b ∧ as.mapM f = some bs' ∧ bs = b :: bs' := by
  simp only [List.mapM_cons, bind_pure_comp] at mapped
  obtain ⟨b, hb, rest⟩ := Option.bind_eq_some_iff.mp mapped
  obtain ⟨bs', hbs', rfl⟩ := Option.map_eq_some_iff.mp rest
  exact ⟨b, bs', hb, hbs', rfl⟩

theorem length_eq_of_mapM :
    ∀ {as : List α} {bs : List β}, as.mapM f = some bs → bs.length = as.length
  | [], bs, mapped => by
    simp only [List.mapM_nil] at mapped
    cases mapped
    rfl
  | _ :: _, _, mapped => by
    obtain ⟨b, bs', -, rest, rfl⟩ := mapM_cons_eq_some mapped
    simp [length_eq_of_mapM rest]

/-- Each element of a list mapped through a partial function maps to the result at its
place. -/
theorem getElem?_of_mapM :
    ∀ {as : List α} {bs : List β}, as.mapM f = some bs →
      ∀ {i : Nat} {a : α} {b : β}, as[i]? = some a → bs[i]? = some b → f a = some b
  | [], _, _, _, _, _, here, _ => by simp at here
  | _ :: _, _, mapped, i, _, _, here, there => by
    obtain ⟨b, bs', mappedHead, rest, rfl⟩ := mapM_cons_eq_some mapped
    cases i with
    | zero =>
      simp only [List.getElem?_cons_zero, Option.some.injEq] at here there
      subst here there
      exact mappedHead
    | succ i => exact getElem?_of_mapM rest (by simpa using here) (by simpa using there)

end Grows

/-- `f n` is an answer computed with fuel `n`: once it answers, more fuel gives the
same answer. -/
def FuelMono {β : Type} (f : Nat → Option β) : Prop := ∀ n x, f n = some x → f (n + 1) = some x

theorem FuelMono.of_le {β : Type} {f : Nat → Option β} (mono : FuelMono f) {n m : Nat} {x : β}
    (answered : f n = some x) (enough : n ≤ m) : f m = some x := by
  induction enough with
  | refl => exact answered
  | step _ ih => exact mono _ x ih

end AppendStore
