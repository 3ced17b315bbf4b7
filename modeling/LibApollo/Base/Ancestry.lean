import Mathlib.Logic.Relation

/-
  Ancestry in a forest of parent pointers.

  The forest is a partial function from a node to its
  parent.  Two ancestors of one node are always related, and
  a set of nodes that share a descendant is a single branch.

  Key definitions include:
    * `Ancestry.Edge`
    * `Ancestry.Ancestor`
    * `Ancestry.Related`
    * `Ancestry.Grounded`

  Key theorems include:
    * `Ancestry.Ancestor.related`
    * `Ancestry.Ancestor.mono`
    * `Ancestry.Ancestor.chain_iff`
    * `Ancestry.Grounded.mono`
-/

------------------------------------------------------------
-- Ancestors
------------------------------------------------------------

namespace Ancestry

variable {K : Type}

/- `y` is the recorded parent of `x`. -/
def Edge
    (parent : K → Option K)
    (x y : K) : Prop :=
  parent x = some y

/- `a` is reached from `x` by following parents. -/
def Ancestor
    (parent : K → Option K)
    (a x : K) : Prop :=
  Relation.ReflTransGen (Edge parent) x a

/- One of two nodes is an ancestor of the other. -/
def Related
    (parent : K → Option K)
    (x y : K) : Prop :=
  Ancestor parent x y ∨ Ancestor parent y x

namespace Ancestor

variable {parent parent' : K → Option K}
variable {a b x y z : K}

theorem refl : Ancestor parent x x :=
  Relation.ReflTransGen.refl

theorem step
    (hParent : parent y = some z)
    (hAncestor : Ancestor parent a z) :
    Ancestor parent a y :=
  Relation.ReflTransGen.head hParent hAncestor

theorem of_parent
    (hParent : parent y = some z) :
    Ancestor parent z y :=
  Relation.ReflTransGen.single hParent

theorem trans
    (hUpper : Ancestor parent a b)
    (hLower : Ancestor parent b x) :
    Ancestor parent a x :=
  Relation.ReflTransGen.trans hLower hUpper

/- A parent function that answers more has more ancestry. -/
theorem mono
    (hMono :
      ∀ u v, parent u = some v → parent' u = some v)
    (hAncestor : Ancestor parent a x) :
    Ancestor parent' a x :=
  Relation.ReflTransGen.mono
    (fun u v hEdge => hMono u v hEdge) x a hAncestor

/- Parents are unique, so ancestors of one node are related. -/
theorem related
    (hLeft : Ancestor parent a x)
    (hRight : Ancestor parent b x) :
    Related parent a b := by
  have hUnique : Relator.RightUnique (Edge parent) := by
    intro u v w hv hw
    exact Option.some.inj (hv.symm.trans hw)
  rcases Relation.ReflTransGen.total_of_right_unique
      hUnique hLeft hRight with hab | hba
  · exact Or.inr hab
  · exact Or.inl hba

/- The ancestors of a child of a root that is a loop. -/
theorem eq_or_eq_root
    {root : K}
    (hParent : parent x = some root)
    (hRoot : parent root = some root)
    (hAncestor : Ancestor parent a x) :
    a = x ∨ a = root := by
  rcases Relation.ReflTransGen.cases_head hAncestor with
    rfl | ⟨y, hEdge, hRest⟩
  · exact Or.inl rfl
  · right
    have hStart : y = root :=
      Option.some.inj (hEdge.symm.trans hParent)
    subst hStart
    clear hAncestor hEdge
    induction hRest with
    | refl => rfl
    | tail _ hEdge ih =>
        rw [ih, Edge, hRoot] at hEdge
        exact (Option.some.inj hEdge).symm

/- Two children of the root are not related. -/
theorem not_related_of_root
    {root : K}
    (hLeft : parent a = some root)
    (hRight : parent b = some root)
    (hRoot : parent root = some root)
    (hNe : a ≠ b)
    (hLeftNe : a ≠ root)
    (hRightNe : b ≠ root) :
    ¬ Related parent a b := by
  intro hCases
  rcases hCases with hAncestor | hAncestor
  · rcases hAncestor.eq_or_eq_root hRight hRoot with
      hEq | hEq
    · exact hNe hEq
    · exact hLeftNe hEq
  · rcases hAncestor.eq_or_eq_root hLeft hRoot with
      hEq | hEq
    · exact hNe hEq.symm
    · exact hRightNe hEq

/- The ancestors of a node on a chain above the root. -/
theorem chain_iff
    (chain : Nat → K)
    {m : Nat}
    (hRoot : parent (chain 0) = some (chain 0))
    (hChain :
      ∀ s, s < m →
        parent (chain (s + 1)) = some (chain s)) :
    Ancestor parent a (chain m) ↔
      ∃ s, s ≤ m ∧ a = chain s := by
  constructor
  · intro hAncestor
    induction hAncestor with
    | refl => exact ⟨m, Nat.le_refl m, rfl⟩
    | tail _ hEdge ih =>
        rcases ih with ⟨s, hBound, rfl⟩
        cases s with
        | zero =>
            rw [Edge, hRoot] at hEdge
            exact ⟨0, Nat.zero_le m,
              (Option.some.inj hEdge).symm⟩
        | succ s =>
            rw [Edge, hChain s (by omega)] at hEdge
            exact ⟨s, by omega,
              (Option.some.inj hEdge).symm⟩
  · intro hParts
    rcases hParts with ⟨s, hBound, rfl⟩
    induction m with
    | zero =>
        rw [Nat.le_zero.mp hBound]
        exact refl
    | succ m ih =>
        rcases Nat.lt_or_eq_of_le hBound with hLt | rfl
        · exact step (hChain m (Nat.lt_succ_self m))
            (ih (fun t hBelow => hChain t (by omega))
              (by omega))
        · exact refl

end Ancestor

end Ancestry

------------------------------------------------------------
-- Grounded Nodes
------------------------------------------------------------

namespace Ancestry

variable {K : Type}

/-
  Following parents from the node stays inside the forest
  until it arrives at the root.
-/
inductive Grounded
    (parent : K → Option K)
    (root : K) : K → Prop where
| root : Grounded parent root root
| step {x y : K} :
    parent x = some y →
      Grounded parent root y →
      Grounded parent root x

namespace Grounded

variable {parent parent' : K → Option K}
variable {root x a : K}

/- Grounded nodes stay grounded when the forest grows. -/
theorem mono
    (hMono :
      ∀ u v, parent u = some v → parent' u = some v)
    (hGrounded : Grounded parent root x) :
    Grounded parent' root x := by
  induction hGrounded with
  | root => exact .root
  | step hParent _ ih =>
      exact .step (hMono _ _ hParent) ih

end Grounded

end Ancestry
