import Mathlib.Logic.Function.Basic

/-
  Self-delimiting codes over the natural numbers.

  A code writes a value as a list of symbols such that the
  end of the value can be read off the list.  Codes compose:
  pairs and lists of coded values are coded, and a code can
  be pulled back along an injective function.

  Key definitions include:
    * `Code`
    * `Code.symbol`, `Code.pair`, `Code.list`
    * `Code.pullback`, `Code.tagged`

  Key theorems include:
    * `Code.encode_injective`
-/

------------------------------------------------------------
-- Codes
------------------------------------------------------------

/- An encoding whose words can be told apart by prefixes. -/
structure Code (A : Type) where
  encode : A → List Nat
  delimited :
    ∀ a b rest rest',
      encode a ++ rest = encode b ++ rest' →
        a = b ∧ rest = rest'

namespace Code

variable {A B : Type}

theorem encode_injective
    (code : Code A) : Function.Injective code.encode := by
  intro a b hEq
  exact (code.delimited a b [] [] (by rw [hEq])).1

/- A number is a word of one symbol. -/
def symbol : Code Nat where
  encode n := [n]
  delimited := by
    intro a b rest rest' hEq
    simpa using hEq

/- A code used through an injective function. -/
def pullback
    (code : Code B)
    (f : A → B)
    (hInjective : Function.Injective f) : Code A where
  encode a := code.encode (f a)
  delimited := by
    intro a b rest rest' hEq
    rcases code.delimited _ _ _ _ hEq with ⟨hValue, hRest⟩
    exact ⟨hInjective hValue, hRest⟩

/- Two words after each other. -/
def pair
    (left : Code A)
    (right : Code B) : Code (A × B) where
  encode x := left.encode x.1 ++ right.encode x.2
  delimited := by
    rintro ⟨a, b⟩ ⟨a', b'⟩ rest rest' hEq
    simp only [List.append_assoc] at hEq
    rcases left.delimited _ _ _ _ hEq with ⟨rfl, hTail⟩
    rcases right.delimited _ _ _ _ hTail with ⟨rfl, hRest⟩
    exact ⟨rfl, hRest⟩

end Code

------------------------------------------------------------
-- Lists and Alternatives
------------------------------------------------------------

namespace Code

variable {A B : Type}

/- The words of a list, with `1` before each and `0` last. -/
def encodeList
    (code : Code A) : List A → List Nat
| [] => [0]
| a :: as => 1 :: (code.encode a ++ encodeList code as)

theorem encodeList_delimited
    (code : Code A)
    (as bs : List A)
    (rest rest' : List Nat)
    (hEq :
      encodeList code as ++ rest =
        encodeList code bs ++ rest') :
    as = bs ∧ rest = rest' := by
  induction as generalizing bs with
  | nil =>
      cases bs with
      | nil => simpa [encodeList] using hEq
      | cons b bs => simp [encodeList] at hEq
  | cons a as ih =>
      cases bs with
      | nil => simp [encodeList] at hEq
      | cons b bs =>
          simp only [encodeList, List.cons_append,
            List.append_assoc, List.cons.injEq, true_and]
            at hEq
          rcases code.delimited _ _ _ _ hEq with
            ⟨rfl, hTail⟩
          rcases ih bs hTail with ⟨rfl, hRest⟩
          exact ⟨rfl, hRest⟩

theorem length_le_encodeList
    (code : Code A)
    (as : List A) :
    as.length ≤ (encodeList code as).length := by
  induction as with
  | nil => exact Nat.zero_le _
  | cons a as ih =>
      simp only [encodeList, List.length_cons,
        List.length_append]
      omega

def list (code : Code A) : Code (List A) where
  encode := encodeList code
  delimited := encodeList_delimited code

/- A value of one of two kinds, told apart by a symbol. -/
def either
    (left : Code A)
    (right : Code B) : Code (A ⊕ B) where
  encode
  | .inl a => 0 :: left.encode a
  | .inr b => 1 :: right.encode b
  delimited := by
    rintro (a | a) (b | b) rest rest' hEq
    · simp only [List.cons_append, List.cons.injEq,
        true_and] at hEq
      rcases left.delimited _ _ _ _ hEq with ⟨rfl, hRest⟩
      exact ⟨rfl, hRest⟩
    · simp at hEq
    · simp at hEq
    · simp only [List.cons_append, List.cons.injEq,
        true_and] at hEq
      rcases right.delimited _ _ _ _ hEq with ⟨rfl, hRest⟩
      exact ⟨rfl, hRest⟩

end Code
