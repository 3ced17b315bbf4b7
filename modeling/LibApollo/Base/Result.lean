import Mathlib.Tactic.Common

/-
  Inversion of sequenced fallible computations, and a rule
  for each way of sequencing that bounds both results and
  failures.

  Key definitions include:
    * `Result.Yields`

  Key theorems include:
    * `Result.bind_eq_ok`
    * `Result.bind_eq_error`
    * `Result.bind_returns_iff`, `Result.bind_returns`
    * `Result.map_eq_ok`, `Result.map_eq_error`
    * `Result.mapError_eq_ok`, `Result.forM_eq_ok`
    * `Result.forM_zipIdx_eq_ok`
    * `Result.loop_ok`, `Result.loop_returns`
    * `Result.Yields.bind`, `Result.Yields.bind_of_ok`
    * `Result.Yields.map`, `Result.Yields.foldlM`
    * `Result.Yields.forM`
-/

namespace Result

variable {F A B : Type}

/- A sequence succeeds when both of its parts do. -/
theorem bind_eq_ok
    {first : Except F A}
    {rest : A → Except F B}
    {b : B} :
    (first >>= rest) = .ok b ↔
      ∃ a, first = .ok a ∧ rest a = .ok b := by
  cases first with
  | error f => simp [bind, Except.bind]
  | ok a => simp [bind, Except.bind]

/- A sequence fails when its first failing part does. -/
theorem bind_eq_error
    {first : Except F A}
    {rest : A → Except F B}
    {f : F} :
    (first >>= rest) = .error f ↔
      first = .error f ∨
        ∃ a, first = .ok a ∧ rest a = .error f := by
  cases first with
  | error g => simp [bind, Except.bind]
  | ok a => simp [bind, Except.bind]

/- A sequence whose rest returns does when it starts. -/
theorem bind_returns_iff
    {first : Except F A}
    {rest : A → Except F B}
    (hRest : ∀ a, first = .ok a → ∃ b, rest a = .ok b) :
    (∃ b, (first >>= rest) = .ok b) ↔
      ∃ a, first = .ok a := by
  constructor
  · intro hReturns
    rcases hReturns with ⟨b, hBind⟩
    rcases bind_eq_ok.mp hBind with ⟨a, hFirst, _⟩
    exact ⟨a, hFirst⟩
  · intro hReturns
    rcases hReturns with ⟨a, hFirst⟩
    rcases hRest a hFirst with ⟨b, hOk⟩
    exact ⟨b, bind_eq_ok.mpr ⟨a, hFirst, hOk⟩⟩

/- A sequence returns when each of its parts does. -/
theorem bind_returns
    {first : Except F A}
    {rest : A → Except F B}
    {a : A}
    (hFirst : first = .ok a)
    (hRest : ∃ b, rest a = .ok b) :
    ∃ b, (first >>= rest) = .ok b := by
  rcases hRest with ⟨b, hOk⟩
  exact ⟨b, bind_eq_ok.mpr ⟨a, hFirst, hOk⟩⟩

theorem map_eq_ok
    {result : Except F A}
    {f : A → B}
    {b : B} :
    result.map f = .ok b ↔
      ∃ a, result = .ok a ∧ f a = b := by
  cases result with
  | error e => simp [Except.map]
  | ok a => simp [Except.map]

theorem map_eq_error
    {result : Except F A}
    {f : A → B}
    {e : F} :
    result.map f = .error e ↔ result = .error e := by
  cases result with
  | error e => simp [Except.map]
  | ok a => simp [Except.map]

theorem mapError_eq_ok
    {F' : Type}
    {result : Except F A}
    {f : F → F'}
    {a : A} :
    result.mapError f = .ok a ↔ result = .ok a := by
  cases result with
  | error e => simp [Except.mapError]
  | ok a => simp [Except.mapError]

/- A check of all elements succeeds when each one does. -/
theorem forM_eq_ok
    {xs : List A}
    {check : A → Except F Unit} :
    xs.forM check = .ok () ↔
      ∀ x ∈ xs, check x = .ok () := by
  induction xs with
  | nil => simp [List.forM, pure, Except.pure]
  | cons x xs ih =>
      change (check x >>= fun _ => xs.forM check) = _ ↔ _
      rw [bind_eq_ok]
      simp only [ih, List.mem_cons, forall_eq_or_imp]
      constructor
      · intro hParts
        rcases hParts with ⟨_, hFirst, hRest⟩
        exact ⟨hFirst, hRest⟩
      · intro hParts
        rcases hParts with ⟨hFirst, hRest⟩
        exact ⟨(), hFirst, hRest⟩

/- The same, for counted elements with their positions. -/
theorem forM_zipIdx_eq_ok
    {count : Nat}
    {element : Nat → A}
    {check : A × Nat → Except F Unit} :
    ((List.range count).map element).zipIdx.forM check =
        .ok () ↔
      ∀ index < count,
        check (element index, index) = .ok () := by
  rw [forM_eq_ok]
  constructor
  · intro hAll index hIndex
    apply hAll
    rw [List.mem_zipIdx_iff_getElem?]
    simp [hIndex]
  · intro hAll entry hMem
    have hGet := List.mem_zipIdx_iff_getElem?.mp hMem
    rcases List.getElem?_eq_some_iff.mp hGet with
      ⟨hLess, hElement⟩
    rw [List.getElem_map, List.getElem_range] at hElement
    rw [List.length_map, List.length_range] at hLess
    have hCheck := hAll entry.2 hLess
    rwa [hElement] at hCheck

/- What each turn keeps holds after a counted loop. -/
theorem loop_ok
    {body : B → Nat → Except F B}
    {count : Nat}
    {start final : B}
    (Inv : Nat → B → Prop)
    (hLoop :
      (List.range count).foldlM body start = .ok final)
    (hStart : Inv 0 start)
    (hNext :
      ∀ index before after, index < count →
        Inv index before →
        body before index = .ok after →
        Inv (index + 1) after) :
    Inv count final := by
  induction count generalizing final with
  | zero =>
      cases hLoop
      exact hStart
  | succ count ih =>
      rw [List.range_succ, List.foldlM_append] at hLoop
      rcases bind_eq_ok.mp hLoop with ⟨mid, hMid, hLast⟩
      rw [List.foldlM_cons] at hLast
      rcases bind_eq_ok.mp hLast with ⟨last, hBody, hEnd⟩
      cases hEnd
      refine hNext count mid final (Nat.lt_succ_self _) ?_
        hBody
      refine ih hMid ?_
      intro index before after hIndex
      exact hNext index before after (by omega)

/- A counted loop returns when each of its turns does. -/
theorem loop_returns
    {body : B → Nat → Except F B}
    {count : Nat}
    {start : B}
    (Inv : Nat → B → Prop)
    (hStart : Inv 0 start)
    (hNext :
      ∀ index before, index < count →
        Inv index before →
        ∃ after, body before index = .ok after ∧
          Inv (index + 1) after) :
    ∃ final,
      (List.range count).foldlM body start = .ok final ∧
        Inv count final := by
  induction count with
  | zero => exact ⟨start, rfl, hStart⟩
  | succ count ih =>
      have hFirst :
          ∀ index before, index < count →
            Inv index before →
            ∃ after, body before index = .ok after ∧
              Inv (index + 1) after := by
        intro index before hIndex
        exact hNext index before (by omega)
      rcases ih hFirst with ⟨mid, hMid, hInv⟩
      rcases hNext count mid (Nat.lt_succ_self _) hInv with
        ⟨final, hBody, hFinal⟩
      refine ⟨final, ?_, hFinal⟩
      rw [List.range_succ, List.foldlM_append]
      refine bind_eq_ok.mpr ⟨mid, hMid, ?_⟩
      rw [List.foldlM_cons]
      exact bind_eq_ok.mpr ⟨final, hBody, rfl⟩

/- A result satisfies `Good` and a failure `Bad`. -/
def Yields
    (Bad : F → Prop)
    (Good : A → Prop) : Except F A → Prop
| .ok a => Good a
| .error f => Bad f

theorem Yields.mono
    {Bad : F → Prop}
    {Good Good' : A → Prop}
    {result : Except F A}
    (hYields : Yields Bad Good result)
    (hGood : ∀ a, Good a → Good' a) :
    Yields Bad Good' result := by
  cases result with
  | ok a => exact hGood a hYields
  | error f => exact hYields

theorem Yields.weaken
    {Bad Bad' : F → Prop}
    {Good : A → Prop}
    {result : Except F A}
    (hYields : Yields Bad Good result)
    (hBad : ∀ f, Bad f → Bad' f) :
    Yields Bad' Good result := by
  cases result with
  | ok a => exact hYields
  | error f => exact hBad f hYields

theorem Yields.bind
    {Bad : F → Prop}
    {Mid : A → Prop}
    {Good : B → Prop}
    {first : Except F A}
    {rest : A → Except F B}
    (hFirst : Yields Bad Mid first)
    (hRest : ∀ a, Mid a → Yields Bad Good (rest a)) :
    Yields Bad Good (first >>= rest) := by
  cases first with
  | ok a => exact hRest a hFirst
  | error f => exact hFirst

/- The rest may use what the first part has returned. -/
theorem Yields.bind_of_ok
    {Bad : F → Prop}
    {Good : B → Prop}
    {first : Except F A}
    {rest : A → Except F B}
    (hFirst : Yields Bad (fun _ => True) first)
    (hRest :
      ∀ a, first = .ok a → Yields Bad Good (rest a)) :
    Yields Bad Good (first >>= rest) := by
  cases first with
  | ok a => exact hRest a rfl
  | error f => exact hFirst

theorem Yields.map
    {Bad : F → Prop}
    {Good : B → Prop}
    {result : Except F A}
    {f : A → B}
    (hYields : Yields Bad (fun a => Good (f a)) result) :
    Yields Bad Good (result.map f) := by
  cases result with
  | ok a => exact hYields
  | error e => exact hYields

/-
  What each iteration keeps, for the elements that remain,
  holds at the end of a loop over a list.
-/
theorem Yields.foldlM
    {Bad : F → Prop}
    {body : B → A → Except F B}
    (Inv : List A → B → Prop)
    (hNext :
      ∀ x xs b, Inv (x :: xs) b →
        Yields Bad (Inv xs) (body b x))
    (xs : List A)
    {b : B}
    (hStart : Inv xs b) :
    Yields Bad (Inv []) (xs.foldlM body b) := by
  induction xs generalizing b with
  | nil => exact hStart
  | cons x xs ih =>
      rw [List.foldlM_cons]
      exact (hNext x xs b hStart).bind (fun _ hMid => ih hMid)

theorem Yields.forM
    {Bad : F → Prop}
    {check : A → Except F Unit}
    (hEach : ∀ x, Yields Bad (fun _ => True) (check x))
    (xs : List A) :
    Yields Bad (fun _ => True) (xs.forM check) := by
  induction xs with
  | nil => trivial
  | cons x xs ih => exact (hEach x).bind (fun _ _ => ih)

end Result
