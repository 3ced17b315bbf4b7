import Mathlib.Data.Finmap
import Mathlib.Data.List.Sort

/-
  Non-dependent finite maps, as a specialisation of
  `Finmap`, with the lookup equations in `if` form, the
  weighted total of the stored values, and the elements of a
  finite set in increasing order.

  Key definitions include:
    * `FinMap`
    * `FinMap.total`
    * `FinMap.ascending`

  Key theorems include:
    * `FinMap.lookup_insert_eq`
    * `FinMap.lookup_erase_eq`
    * `FinMap.forall_insert`, `FinMap.forall_erase`
    * `FinMap.card_keys_erase_lt`
    * `FinMap.card_keys_insert_le`
    * `FinMap.total_insert_of_none`
    * `FinMap.total_erase_of_some`
    * `FinMap.total_insert_le`, `FinMap.total_le_of_le`
    * `FinMap.total_le_of_entries`
    * `FinMap.ascending_erase_head`
-/

------------------------------------------------------------
-- Lookup Equations
------------------------------------------------------------

/- Finite maps from `K` to `V` with extensional equality. -/
abbrev FinMap (K V : Type) :=
  Finmap (fun _ : K => V)

namespace FinMap

variable {K V : Type} [DecidableEq K]

/- Lookup after an insertion. -/
@[grind =]
theorem lookup_insert_eq
    (m : FinMap K V)
    (k k' : K)
    (v : V) :
    Finmap.lookup k' (m.insert k v) =
      if k' = k then some v else Finmap.lookup k' m := by
  by_cases hKey : k' = k
  · subst hKey
    simp
  · simp [hKey, Finmap.lookup_insert_of_ne m hKey]

/- Lookup after an erasure. -/
@[grind =]
theorem lookup_erase_eq
    (m : FinMap K V)
    (k k' : K) :
    Finmap.lookup k' (m.erase k) =
      if k' = k then none else Finmap.lookup k' m := by
  by_cases hKey : k' = k
  · subst hKey
    simp
  · simp [hKey, Finmap.lookup_erase_ne hKey]

/- What holds of all entries, and of the one inserted. -/
theorem forall_insert
    {m : FinMap K V}
    {k : K}
    {v : V}
    {P : K → V → Prop}
    (hOld : ∀ k' v', m.lookup k' = some v' → P k' v')
    (hNew : P k v) :
    ∀ k' v', (m.insert k v).lookup k' = some v' →
      P k' v' := by
  intro k' v' hLookup
  rw [lookup_insert_eq] at hLookup
  split at hLookup
  · rename_i hKey
    cases hLookup
    rw [hKey]
    exact hNew
  · exact hOld k' v' hLookup

/- What holds of all entries holds of those that are left. -/
theorem forall_erase
    {m : FinMap K V}
    {k : K}
    {P : K → V → Prop}
    (hOld : ∀ k' v', m.lookup k' = some v' → P k' v') :
    ∀ k' v', (m.erase k).lookup k' = some v' →
      P k' v' := by
  intro k' v' hLookup
  rw [lookup_erase_eq] at hLookup
  split at hLookup
  · cases hLookup
  · exact hOld k' v' hLookup

/- An entry that is replaced need not be erased before. -/
theorem insert_erase_self
    (m : FinMap K V)
    (k : K)
    (v : V) :
    (m.erase k).insert k v = m.insert k v := by
  apply Finmap.ext_lookup
  intro other
  rw [lookup_insert_eq, lookup_insert_eq, lookup_erase_eq]
  split
  · rfl
  · rfl

/- Erasing a present key shrinks the key set. -/
theorem card_keys_erase_lt
    {m : FinMap K V}
    {k : K}
    {v : V}
    (hLookup : Finmap.lookup k m = some v) :
    (m.erase k).keys.card < m.keys.card := by
  rw [Finmap.keys_erase]
  apply Finset.card_erase_lt_of_mem
  rw [Finmap.mem_keys]
  exact Finmap.mem_of_lookup_eq_some hLookup

/- Erasing an entry takes one key away. -/
theorem card_keys_erase_of_some
    {m : FinMap K V}
    {k : K}
    {v : V}
    (hLookup : Finmap.lookup k m = some v) :
    (m.erase k).keys.card + 1 = m.keys.card := by
  rw [Finmap.keys_erase]
  apply Finset.card_erase_add_one
  rw [Finmap.mem_keys]
  exact Finmap.mem_of_lookup_eq_some hLookup

/- A fresh key is one more. -/
theorem card_keys_insert_of_none
    {m : FinMap K V}
    {k : K}
    {v : V}
    (hFresh : Finmap.lookup k m = none) :
    (m.insert k v).keys.card = m.keys.card + 1 := by
  have hKeys : (m.insert k v).keys = insert k m.keys := by
    ext other
    rw [Finmap.mem_keys, Finmap.mem_insert,
      Finset.mem_insert, Finmap.mem_keys]
  rw [hKeys, Finset.card_insert_of_notMem]
  rw [Finmap.mem_keys]
  exact Finmap.lookup_eq_none.mp hFresh

/- An insertion adds at most one key. -/
theorem card_keys_insert_le
    (m : FinMap K V)
    (k : K)
    (v : V) :
    (m.insert k v).keys.card ≤ m.keys.card + 1 := by
  have hSubset : (m.insert k v).keys ⊆ insert k m.keys := by
    intro other hMem
    rw [Finmap.mem_keys, Finmap.mem_insert] at hMem
    rw [Finset.mem_insert, Finmap.mem_keys]
    exact hMem
  exact (Finset.card_le_card hSubset).trans
    (Finset.card_insert_le k m.keys)

/- A map without keys answers every lookup with `none`. -/
theorem lookup_eq_none_of_card_eq_zero
    {m : FinMap K V}
    (hCard : m.keys.card = 0)
    (k : K) :
    Finmap.lookup k m = none := by
  rw [Finmap.lookup_eq_none, ← Finmap.mem_keys,
    Finset.card_eq_zero.mp hCard]
  exact Finset.notMem_empty k

theorem eq_empty_of_card_eq_zero
    {m : FinMap K V}
    (hCard : m.keys.card = 0) :
    m = ∅ := by
  apply Finmap.ext_lookup
  intro k
  rw [lookup_eq_none_of_card_eq_zero hCard]
  simp

end FinMap

------------------------------------------------------------
-- Weighted Totals
------------------------------------------------------------

namespace FinMap

variable {K V : Type} [DecidableEq K]

/- The sum of a weight over the values of a map. -/
def total
    (w : V → Nat)
    (m : FinMap K V) : Nat :=
  (m.entries.map (fun e => w e.2)).sum

omit [DecidableEq K] in
@[simp] theorem total_empty
    (w : V → Nat) :
    total w (∅ : FinMap K V) = 0 := rfl

/- A fresh key adds the weight of its value. -/
theorem total_insert_of_none
    {w : V → Nat}
    {m : FinMap K V}
    {k : K}
    {v : V}
    (hFresh : Finmap.lookup k m = none) :
    total w (m.insert k v) = w v + total w m := by
  have hNotMem : k ∉ m :=
    Finmap.lookup_eq_none.mp hFresh
  unfold total
  rw [Finmap.entries_insert_of_notMem hNotMem]
  simp

/- A map is the insertion of any of its own entries. -/
theorem insert_erase_of_some
    {m : FinMap K V}
    {k : K}
    {v : V}
    (hLookup : Finmap.lookup k m = some v) :
    (m.erase k).insert k v = m := by
  apply Finmap.ext_lookup
  intro k'
  rw [lookup_insert_eq, lookup_erase_eq]
  by_cases hKey : k' = k
  · subst hKey
    simp [hLookup]
  · simp [hKey]

/- Erasing an entry removes the weight of its value. -/
theorem total_erase_of_some
    {w : V → Nat}
    {m : FinMap K V}
    {k : K}
    {v : V}
    (hLookup : Finmap.lookup k m = some v) :
    total w m = w v + total w (m.erase k) := by
  have hFresh :
      Finmap.lookup k (m.erase k) = none := by
    simp
  have hTotal :=
    total_insert_of_none (w := w) (v := v) hFresh
  rwa [insert_erase_of_some hLookup] at hTotal

/- Erasing an absent key changes nothing. -/
theorem erase_of_none
    {m : FinMap K V}
    {k : K}
    (hLookup : Finmap.lookup k m = none) :
    m.erase k = m := by
  apply Finmap.ext_lookup
  intro k'
  rw [lookup_erase_eq]
  by_cases hKey : k' = k
  · subst hKey
    simp [hLookup]
  · simp [hKey]

/- Insertion replaces whatever the key held before. -/
theorem total_insert
    {w : V → Nat}
    (m : FinMap K V)
    (k : K)
    (v : V) :
    total w (m.insert k v) =
      w v + total w (m.erase k) := by
  have hInsert :
      m.insert k v = (m.erase k).insert k v := by
    apply Finmap.ext_lookup
    intro k'
    rw [lookup_insert_eq, lookup_insert_eq,
      lookup_erase_eq]
    by_cases hKey : k' = k <;> simp [hKey]
  rw [hInsert]
  exact total_insert_of_none (by simp)

/- An insertion adds at most the weight of its value. -/
theorem total_insert_le
    (w : V → Nat)
    (m : FinMap K V)
    (k : K)
    (v : V) :
    total w (m.insert k v) ≤ w v + total w m := by
  rw [total_insert]
  cases hLookup : m.lookup k with
  | none => rw [erase_of_none hLookup]
  | some old =>
      rw [total_erase_of_some hLookup (w := w)]
      omega

omit [DecidableEq K] in
/- A smaller weight has a smaller total. -/
theorem total_le_of_le
    {w w' : V → Nat}
    (hLe : ∀ v, w v ≤ w' v)
    (m : FinMap K V) :
    total w m ≤ total w' m := by
  unfold total
  induction m.entries using Multiset.induction_on with
  | empty => simp
  | cons e rest ih =>
      have hHead := hLe e.2
      rw [Multiset.map_cons, Multiset.map_cons,
        Multiset.sum_cons, Multiset.sum_cons]
      omega

/- A map with fewer entries has a smaller total. -/
theorem total_le_of_entries
    {w : V → Nat}
    {m m' : FinMap K V}
    (hEntries :
      ∀ k v, m.lookup k = some v →
        m'.lookup k = some v) :
    total w m ≤ total w m' := by
  generalize hCard : m.keys.card = n
  induction n generalizing m m' with
  | zero =>
      rw [eq_empty_of_card_eq_zero hCard, total_empty]
      exact Nat.zero_le _
  | succ n ih =>
      have hSome : m.keys.Nonempty := by
        rw [← Finset.card_pos]
        omega
      rcases hSome with ⟨k, hKey⟩
      rcases Finmap.mem_iff.mp (Finmap.mem_keys.mp hKey) with
        ⟨v, hLookup⟩
      have hRest :
          total w (m.erase k) ≤ total w (m'.erase k) := by
        apply ih
        · intro k' v' hLeft
          rw [lookup_erase_eq] at hLeft ⊢
          split at hLeft
          · cases hLeft
          · rename_i hOther
            rw [if_neg hOther]
            exact hEntries k' v' hLeft
        · rw [Finmap.keys_erase,
            Finset.card_erase_of_mem hKey]
          omega
      rw [total_erase_of_some hLookup,
        total_erase_of_some (hEntries k v hLookup)]
      omega

end FinMap

------------------------------------------------------------
-- Increasing Enumeration
------------------------------------------------------------

namespace FinMap

variable {K : Type} [LinearOrder K]

/- The elements of a finite set in increasing order. -/
def ascending (s : Finset K) : List K :=
  Quot.liftOn s.val (List.insertionSort (· ≤ ·))
    (fun left right hPerm =>
      ((List.perm_insertionSort _ left).trans
        (hPerm.trans
          (List.perm_insertionSort _ right).symm))
        |>.eq_of_pairwise' (r := (· ≤ ·))
          (List.pairwise_insertionSort _ left)
          (List.pairwise_insertionSort _ right))

theorem coe_ascending
    (s : Finset K) :
    (↑(ascending s) : Multiset K) = s.val := by
  rcases s with ⟨⟨elements⟩, hNodup⟩
  exact Multiset.coe_eq_coe.mpr
    (List.perm_insertionSort _ elements)

theorem mem_ascending
    (s : Finset K)
    (k : K) :
    k ∈ ascending s ↔ k ∈ s := by
  rw [← Multiset.mem_coe, coe_ascending, Finset.mem_val]

theorem nodup_ascending
    (s : Finset K) : (ascending s).Nodup := by
  rw [← Multiset.coe_nodup, coe_ascending]
  exact s.nodup

theorem pairwise_ascending
    (s : Finset K) :
    (ascending s).Pairwise (· ≤ ·) := by
  rcases s with ⟨⟨elements⟩, hNodup⟩
  exact List.pairwise_insertionSort _ elements

/- Without the smallest element the others remain. -/
theorem ascending_erase_head
    {s : Finset K}
    {k : K}
    {ks : List K}
    (hAscending : ascending s = k :: ks) :
    ascending (s.erase k) = ks := by
  have hSorted := pairwise_ascending s
  rw [hAscending] at hSorted
  have hSame :
      (↑(ascending (s.erase k)) : Multiset K) = ↑ks := by
    rw [coe_ascending, Finset.erase_val, ← coe_ascending,
      hAscending, Multiset.coe_erase,
      List.erase_cons_head]
  exact (Multiset.coe_eq_coe.mp hSame).eq_of_pairwise'
    (r := (· ≤ ·)) (pairwise_ascending _)
    (List.pairwise_cons.mp hSorted).2

end FinMap
