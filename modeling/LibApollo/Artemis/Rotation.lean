import LibApollo.Artemis.Context
import LibApollo.Base.Result
import LibApollo.Types.Symbolic
import Mathlib.Data.Finset.Card
import Mathlib.Data.List.Perm.Basic

/-
  The rotation of Artemis round leaders.

  The last `f` leaders and the eligible ones together are
  always all replicas, so that a next leader can be drawn
  and differs from the last `f`.  The rotation depends on
  the round alone, hence all nodes follow one schedule.

  Key definitions include:
    * `Leaders.Rotates`
    * `Leaders.schedule`, `Leaders.leaderAt`
    * `Context.afterRounds`

  Key theorems include:
    * `Leaders.Rotates.advance`
    * `Leaders.advance_ok`
    * `Leaders.rotates_of_schedule`
    * `leaders_rotate`
-/

------------------------------------------------------------
-- All Replicas Take Part
------------------------------------------------------------

namespace LibApollo

namespace Artemis

namespace Leaders

/- The two lists share out the `n` replicas. -/
structure Rotates
    (n f : Nat)
    (leaders : Leaders) : Prop where
  lastLength : leaders.lastFLeaders.length = f
  eligibleLength :
    leaders.eligibleLeaders.length = n - f
  all :
    (leaders.lastFLeaders ++
      leaders.eligibleLeaders).Perm (List.range n)
  leader_lt : leaders.roundLeader < n

theorem rotates_new
    {n f : Nat}
    (hFaults : 1 ≤ f)
    (hNodes : 2 * f < n) :
    Rotates n f (new n f) where
  lastLength := List.length_range
  eligibleLength := List.length_range'
  all := by
    have hSplit :
        List.range f ++ List.range' f (n - f) =
          List.range n := by
      have hAppend :
          List.range' 0 f ++ List.range' (0 + f) (n - f) =
            List.range' 0 (f + (n - f)) :=
        List.range'_append_1
      rw [List.range_eq_range', List.range_eq_range']
      simpa [show f + (n - f) = n by omega] using hAppend
    simp only [new]
    rw [hSplit]
  leader_lt := by
    have hBound : f < n := by omega
    exact Nat.lt_of_le_of_lt (Nat.sub_le f 1) hBound

variable {H : Type} [Crypto H]

/- What a successful draw returns. -/
theorem computeNextRoundLeader_ok
    {leaders : Leaders}
    {round leader idx : Nat}
    (hDraw :
      computeNextRoundLeader H leaders round =
        .ok (leader, idx)) :
    leaders.eligibleLeaders[idx]? = some leader := by
  unfold computeNextRoundLeader at hDraw
  dsimp only at hDraw
  split at hDraw
  · cases hDraw
  · split at hDraw
    · cases hDraw
    · rename_i drawn hLookup
      cases hDraw
      exact hLookup

/- A draw succeeds when someone is eligible. -/
theorem exists_computeNextRoundLeader
    {leaders : Leaders}
    (hEligible : 0 < leaders.eligibleLeaders.length)
    (round : Nat) :
    ∃ leader idx,
      computeNextRoundLeader H leaders round =
        .ok (leader, idx) := by
  unfold computeNextRoundLeader
  dsimp only
  rw [if_neg (by omega)]
  have hIndex :
      Crypto.roundIndex H (round + 1) %
          leaders.eligibleLeaders.length <
        leaders.eligibleLeaders.length :=
    Nat.mod_lt _ hEligible
  rw [List.getElem?_eq_getElem hIndex]
  exact ⟨_, _, rfl⟩

/- What a successful advance returns. -/
theorem advance_ok
    {leaders leaders' : Leaders}
    {round : Nat}
    (hAdvance : advance H leaders round = .ok leaders') :
    ∃ idx oldest rest,
      computeNextRoundLeader H leaders round =
          .ok (leaders'.roundLeader, idx) ∧
        leaders.lastFLeaders = oldest :: rest ∧
        leaders' =
          { roundLeader := leaders'.roundLeader
            lastFLeaders :=
              rest.erase leaders'.roundLeader ++
                [leaders'.roundLeader]
            eligibleLeaders :=
              leaders.eligibleLeaders.set idx oldest } := by
  rcases Result.bind_eq_ok.mp hAdvance with
    ⟨⟨leader, idx⟩, hDraw, hRest⟩
  dsimp only at hRest
  cases hLast : leaders.lastFLeaders with
  | nil => simp [hLast] at hRest
  | cons oldest rest =>
      simp only [hLast, Except.ok.injEq] at hRest
      subst hRest
      exact ⟨idx, oldest, rest, hDraw, rfl, rfl⟩

/- An advance fails where the draw or the pop does. -/
theorem exists_advance
    {n f : Nat}
    {leaders : Leaders}
    (hFaults : 1 ≤ f)
    (hNodes : 2 * f < n)
    (hRotates : Rotates n f leaders)
    (round : Nat) :
    ∃ leaders', advance H leaders round = .ok leaders' := by
  have hEligible : 0 < leaders.eligibleLeaders.length := by
    rw [hRotates.eligibleLength]
    omega
  rcases exists_computeNextRoundLeader (H := H) hEligible
      round with ⟨leader, idx, hDraw⟩
  cases hLast : leaders.lastFLeaders with
  | nil =>
      have hLength := hRotates.lastLength
      rw [hLast, List.length_nil] at hLength
      omega
  | cons oldest rest =>
      refine
        ⟨{ roundLeader := leader
           lastFLeaders := rest.erase leader ++ [leader]
           eligibleLeaders :=
             leaders.eligibleLeaders.set idx oldest },
          Result.bind_eq_ok.mpr ⟨(leader, idx), hDraw, ?_⟩⟩
      simp only [hLast]

/- Replacing an element puts it in the other's place. -/
theorem set_perm
    {l : List Nat}
    {i a b : Nat}
    (hLookup : l[i]? = some a) :
    (a :: l.set i b).Perm (b :: l) := by
  rcases List.getElem?_eq_some_iff.mp hLookup with
    ⟨hBound, rfl⟩
  calc
    (l[i] :: l.set i b).Perm
        (l[i] :: b :: l.eraseIdx i) :=
      (List.set_perm_cons_eraseIdx hBound b).cons _
    (l[i] :: b :: l.eraseIdx i).Perm
        (b :: l[i] :: l.eraseIdx i) :=
      List.Perm.swap _ _ _
    (b :: l[i] :: l.eraseIdx i).Perm (b :: l) :=
      (List.getElem_cons_eraseIdx_perm hBound).cons b

/- An advance keeps all replicas in the rotation. -/
theorem Rotates.advance
    {n f : Nat}
    {leaders leaders' : Leaders}
    {round : Nat}
    (hRotates : Rotates n f leaders)
    (hAdvance :
      Leaders.advance H leaders round = .ok leaders') :
    Rotates n f leaders' := by
  rcases advance_ok hAdvance with
    ⟨idx, oldest, rest, hDraw, hLast, hEq⟩
  have hLookup := computeNextRoundLeader_ok hDraw
  have hMember :
      leaders'.roundLeader ∈ leaders.eligibleLeaders :=
    List.mem_of_getElem? hLookup
  have hAll := hRotates.all
  have hLength := hRotates.lastLength
  rw [hLast] at hAll hLength
  have hNodup :
      ((oldest :: rest) ++
        leaders.eligibleLeaders).Nodup :=
    hAll.nodup_iff.mpr List.nodup_range
  -- an eligible replica is not among the last leaders
  have hFresh : leaders'.roundLeader ∉ rest := by
    intro hOld
    exact (List.disjoint_of_nodup_append hNodup)
      (List.mem_cons_of_mem _ hOld) hMember
  rw [hEq]
  refine
    { lastLength := ?_
      eligibleLength := ?_
      all := ?_
      leader_lt := ?_ }
  · simp only [List.erase_of_not_mem hFresh,
      List.length_append, List.length_singleton]
    exact hLength
  · simp only [List.length_set]
    exact hRotates.eligibleLength
  · simp only [List.erase_of_not_mem hFresh]
    refine List.Perm.trans ?_ hAll
    rw [List.append_assoc, List.singleton_append]
    calc
      (rest ++ leaders'.roundLeader ::
          leaders.eligibleLeaders.set idx oldest).Perm
          (rest ++ oldest :: leaders.eligibleLeaders) :=
        (set_perm hLookup).append_left rest
      (rest ++ oldest :: leaders.eligibleLeaders).Perm
          (oldest :: rest ++ leaders.eligibleLeaders) :=
        List.perm_middle
  · have hRange :
        leaders'.roundLeader ∈ List.range n :=
      hAll.subset
        (List.mem_append_right _ hMember)
    exact List.mem_range.mp hRange

end Leaders

end Artemis

end LibApollo

------------------------------------------------------------
-- One Schedule
------------------------------------------------------------

namespace LibApollo

namespace Artemis

namespace Leaders

variable (H : Type) [Crypto H]

/- The rotation after a number of rounds. -/
def schedule
    (n f : Nat) : Nat → Except Panic Leaders
| 0 => .ok (new n f)
| rounds + 1 => do
    let leaders ← schedule n f rounds
    advance H leaders (rounds + 1)

/- The leader of a round. -/
def leaderAt
    (n f round : Nat) : Replica :=
  match schedule H n f (round - 1) with
  | .ok leaders => leaders.roundLeader
  | .error _ => 0

variable {H}

theorem schedule_succ
    {n f rounds : Nat}
    {leaders : Leaders}
    (hNow : schedule H n f rounds = .ok leaders) :
    schedule H n f (rounds + 1) =
      advance H leaders (rounds + 1) := by
  rw [schedule, hNow]
  rfl

theorem leaderAt_eq
    {n f round : Nat}
    {leaders : Leaders}
    (hNow : schedule H n f (round - 1) = .ok leaders) :
    leaderAt H n f round = leaders.roundLeader := by
  rw [leaderAt, hNow]

/- All replicas stay in the rotation. -/
theorem rotates_of_schedule
    {n f rounds : Nat}
    {leaders : Leaders}
    (hFaults : 1 ≤ f)
    (hNodes : 2 * f < n)
    (hNow : schedule H n f rounds = .ok leaders) :
    Rotates n f leaders := by
  induction rounds generalizing leaders with
  | zero =>
      cases hNow
      exact rotates_new hFaults hNodes
  | succ rounds ih =>
      rcases Result.bind_eq_ok.mp hNow with
        ⟨before, hBefore, hAdvance⟩
      exact (ih hBefore).advance hAdvance

/- The leader of a round is one of the replicas. -/
theorem leaderAt_lt
    {n f : Nat}
    (hFaults : 1 ≤ f)
    (hNodes : 2 * f < n)
    (round : Nat) :
    leaderAt H n f round < n := by
  unfold leaderAt
  split
  · rename_i leaders hNow
    exact (rotates_of_schedule hFaults hNodes
      hNow).leader_lt
  · change 0 < n
    omega

end Leaders

end Artemis

end LibApollo

------------------------------------------------------------
-- Consecutive Leaders
------------------------------------------------------------

namespace LibApollo

namespace Artemis

namespace Leaders

variable {H : Type} [Crypto H]
variable {n f : Nat}
variable {leaders leaders' : Leaders}

/- The leader is the one inserted last. -/
def LeaderLast (leaders : Leaders) : Prop :=
  leaders.lastFLeaders.getLast? = some leaders.roundLeader

theorem leaderLast_new
    (hFaults : 1 ≤ f) :
    LeaderLast (new n f) := by
  rcases Nat.exists_eq_add_of_le' hFaults with ⟨rest, rfl⟩
  simp [LeaderLast, new, List.range_succ]

theorem leaderLast_advance
    {round : Nat}
    (hAdvance :
      Leaders.advance H leaders round = .ok leaders') :
    LeaderLast leaders' := by
  rcases advance_ok hAdvance with
    ⟨_, _, _, _, _, hEq⟩
  rw [LeaderLast, hEq]
  simp

/- The next leader is none of the last `f`. -/
theorem Rotates.next_not_mem
    {round : Nat}
    (hRotates : Rotates n f leaders)
    (hAdvance :
      Leaders.advance H leaders round = .ok leaders') :
    leaders'.roundLeader ∉ leaders.lastFLeaders := by
  rcases advance_ok hAdvance with ⟨_, _, _, hDraw, _, _⟩
  have hEligible :
      leaders'.roundLeader ∈ leaders.eligibleLeaders :=
    List.mem_of_getElem? (computeNextRoundLeader_ok hDraw)
  have hNodup :
      (leaders.lastFLeaders ++
        leaders.eligibleLeaders).Nodup :=
    hRotates.all.nodup_iff.mpr List.nodup_range
  intro hLast
  exact (List.disjoint_of_nodup_append hNodup) hLast
    hEligible

/- All but the oldest leader move up by one place. -/
theorem Rotates.lastFLeaders_advance
    {round place : Nat}
    (hRotates : Rotates n f leaders)
    (hAdvance :
      Leaders.advance H leaders round = .ok leaders')
    (hPlace : place + 1 < f) :
    leaders'.lastFLeaders[place]? =
      leaders.lastFLeaders[place + 1]? := by
  have hFresh := hRotates.next_not_mem hAdvance
  have hLength := hRotates.lastLength
  rcases advance_ok hAdvance with
    ⟨_, oldest, rest, _, hLast, hEq⟩
  rw [hLast] at hFresh hLength
  have hNotRest : leaders'.roundLeader ∉ rest := by
    intro hMem
    exact hFresh (List.mem_cons_of_mem _ hMem)
  have hBound : place < rest.length := by
    simp only [List.length_cons] at hLength
    omega
  rw [hEq, hLast, List.getElem?_cons_succ]
  simp only [List.erase_of_not_mem hNotRest]
  exact List.getElem?_append_left hBound

end Leaders

end Artemis

end LibApollo

namespace LibApollo

namespace Artemis

variable {H : Type} [DecidableEq H] [Crypto H]

/- The context after a number of rounds were entered. -/
def Context.afterRounds
    (cx : Context H) : Nat → Except Panic (Context H)
| 0 => .ok cx
| rounds + 1 => do
    let cx ← Context.afterRounds cx rounds
    cx.updateRound

theorem Context.updateRound_leaders
    {cx cx' : Context H}
    (hUpdate : cx.updateRound = .ok cx') :
    Leaders.advance H cx.leaders cx.round =
        .ok cx'.leaders ∧
      cx'.round = cx.round + 1 := by
  rcases Result.bind_eq_ok.mp hUpdate with
    ⟨leaders, hAdvance, hRest⟩
  cases hRest
  exact ⟨hAdvance, rfl⟩

theorem Context.exists_updateRound
    {cx : Context H}
    {n f : Nat}
    (hFaults : 1 ≤ f)
    (hNodes : 2 * f < n)
    (hRotates : cx.leaders.Rotates n f) :
    ∃ cx', cx.updateRound = .ok cx' := by
  rcases Leaders.exists_advance (H := H) hFaults hNodes
      hRotates cx.round with ⟨leaders, hAdvance⟩
  refine ⟨_, Result.bind_eq_ok.mpr ⟨leaders, hAdvance, rfl⟩⟩

/- An infinite run of rounds, one context for each. -/
structure RoundRun
    (n f : Nat)
    (run : Nat → Context H) : Prop where
  rotates : ∀ k, (run k).leaders.Rotates n f
  last : ∀ k, (run k).leaders.LeaderLast
  next : ∀ k, (run k).updateRound = .ok (run (k + 1))

/- The contexts of all rounds exist. -/
theorem exists_roundRun
    (config : Config)
    (hFaults : 1 ≤ config.numFaults)
    (hNodes : 2 * config.numFaults < config.numNodes) :
    ∃ run : Nat → Context H,
      RoundRun config.numNodes config.numFaults run ∧
        ∀ k,
          (Context.new config).afterRounds k =
            .ok (run k) := by
  -- the rotation is what lets the next round be entered
  have hAll :
      ∀ k, ∃ cx : Context H,
        (Context.new config).afterRounds k = .ok cx ∧
          cx.leaders.Rotates config.numNodes
            config.numFaults ∧
          cx.leaders.LeaderLast := by
    intro k
    induction k with
    | zero =>
        exact ⟨_, rfl,
          Leaders.rotates_new hFaults hNodes,
          Leaders.leaderLast_new hFaults⟩
    | succ k ih =>
        rcases ih with ⟨cx, hNow, hRotates, _⟩
        rcases Context.exists_updateRound hFaults hNodes
            hRotates with ⟨cx', hUpdate⟩
        have hAdvance :=
          (Context.updateRound_leaders hUpdate).1
        exact ⟨cx',
          Result.bind_eq_ok.mpr ⟨cx, hNow, hUpdate⟩,
          hRotates.advance hAdvance,
          Leaders.leaderLast_advance hAdvance⟩
  choose run hRun using hAll
  refine ⟨run, ?_, fun k => (hRun k).1⟩
  refine
    { rotates := fun k => (hRun k).2.1
      last := fun k => (hRun k).2.2
      next := ?_ }
  intro k
  rcases Result.bind_eq_ok.mp (hRun (k + 1)).1 with
    ⟨cx, hNow, hUpdate⟩
  have hSame : cx = run k := by
    have hEq := hNow.symm.trans (hRun k).1
    simpa using hEq
  rw [← hSame]
  exact hUpdate

namespace RoundRun

variable {n f : Nat}
variable {run : Nat → Context H}

theorem advance
    (hRun : RoundRun n f run)
    (k : Nat) :
    Leaders.advance H (run k).leaders (run k).round =
      .ok (run (k + 1)).leaders :=
  (Context.updateRound_leaders (hRun.next k)).1

/- A leader is kept for the next `f - 1` rounds. -/
theorem leader_kept
    (hRun : RoundRun n f run)
    (k : Nat)
    {later : Nat}
    (hLater : later < f) :
    (run (k + later)).leaders.lastFLeaders[
        f - 1 - later]? =
      some (run k).leaders.roundLeader := by
  induction later with
  | zero =>
      have hLast := hRun.last k
      rw [Leaders.LeaderLast,
        List.getLast?_eq_getElem?] at hLast
      rw [(hRun.rotates k).lastLength] at hLast
      simpa using hLast
  | succ later ih =>
      have hMoved :=
        (hRun.rotates (k + later)).lastFLeaders_advance
          (hRun.advance (k + later))
          (show f - 1 - (later + 1) + 1 < f by omega)
      have hPlace :
          f - 1 - (later + 1) + 1 = f - 1 - later := by
        omega
      rw [hPlace, ih (by omega)] at hMoved
      exact hMoved

/- The leaders of `f + 1` consecutive rounds differ. -/
theorem leader_ne
    (hRun : RoundRun n f run)
    (k : Nat)
    {i j : Nat}
    (hOrder : i < j)
    (hWindow : j ≤ f) :
    (run (k + i)).leaders.roundLeader ≠
      (run (k + j)).leaders.roundLeader := by
  rcases Nat.exists_eq_add_of_lt hOrder with ⟨gap, rfl⟩
  have hKept :=
    hRun.leader_kept (k + i)
      (show gap < f by omega)
  have hMember := List.mem_of_getElem? hKept
  have hNext :=
    (hRun.rotates (k + i + gap)).next_not_mem
      (hRun.advance (k + i + gap))
  have hIndex : k + (i + gap + 1) = k + i + gap + 1 := by
    omega
  intro hEq
  rw [hEq, hIndex] at hMember
  exact hNext hMember

/- One of them is not among `f` faulty replicas. -/
theorem exists_honest_leader
    (hRun : RoundRun n f run)
    {faulty : Finset Replica}
    (hFaulty : faulty.card ≤ f)
    (k : Nat) :
    ∃ i ≤ f,
      (run (k + i)).leaders.roundLeader ∉ faulty := by
  by_contra hNone
  push Not at hNone
  have hCard :
      (Finset.range (f + 1)).card ≤ faulty.card := by
    apply Finset.card_le_card_of_injOn
      (fun i => (run (k + i)).leaders.roundLeader)
    · intro i hMem
      apply hNone i
      have hBound := Finset.mem_range.mp hMem
      omega
    · intro i hI j hJ hEq
      have hBoundI := Finset.mem_range.mp hI
      have hBoundJ := Finset.mem_range.mp hJ
      rcases Nat.lt_trichotomy i j with hLt | hSame | hGt
      · exact absurd hEq
          (hRun.leader_ne k hLt (by omega))
      · exact hSame
      · exact absurd hEq.symm
          (hRun.leader_ne k hGt (by omega))
  rw [Finset.card_range] at hCard
  omega

/- The next leader is drawn at an index in range. -/
theorem exists_index
    (hRun : RoundRun n f run)
    (k : Nat) :
    ∃ idx,
      idx < (run k).leaders.eligibleLeaders.length ∧
        Leaders.computeNextRoundLeader H (run k).leaders
            (run k).round =
          .ok ((run (k + 1)).leaders.roundLeader, idx) ∧
        (run k).leaders.eligibleLeaders[idx]? =
          some (run (k + 1)).leaders.roundLeader := by
  rcases Leaders.advance_ok (hRun.advance k) with
    ⟨idx, _, _, hDraw, _, _⟩
  have hLookup := Leaders.computeNextRoundLeader_ok hDraw
  rcases List.getElem?_eq_some_iff.mp hLookup with
    ⟨hBound, _⟩
  exact ⟨idx, hBound, hDraw, hLookup⟩

end RoundRun

/-
  Rounds can be entered forever.  In each, the last `f`
  leaders and the eligible ones are all replicas once, the
  leader is the one inserted last, and the next is drawn at
  an index in range.  Hence `f + 1` consecutive leaders
  differ, and one of them is honest.
-/
theorem leaders_rotate
    (config : Config)
    (hFaults : 1 ≤ config.numFaults)
    (hNodes : 2 * config.numFaults < config.numNodes) :
    ∃ run : Nat → Context H,
      (∀ k,
        (Context.new config).afterRounds k =
          .ok (run k)) ∧
      (∀ k,
        ((run k).leaders.lastFLeaders ++
            (run k).leaders.eligibleLeaders).Perm
          (List.range config.numNodes) ∧
        (run k).leaders.lastFLeaders.length =
          config.numFaults ∧
        (run k).leaders.eligibleLeaders.length =
          config.numNodes - config.numFaults ∧
        (run k).leaders.lastFLeaders.getLast? =
          some (run k).leaders.roundLeader) ∧
      (∀ k, ∃ idx,
        idx < (run k).leaders.eligibleLeaders.length ∧
          Leaders.computeNextRoundLeader H (run k).leaders
              (run k).round =
            .ok ((run (k + 1)).leaders.roundLeader, idx) ∧
          (run k).leaders.eligibleLeaders[idx]? =
            some (run (k + 1)).leaders.roundLeader) ∧
      (∀ k i j, i < j → j ≤ config.numFaults →
        (run (k + i)).leaders.roundLeader ≠
          (run (k + j)).leaders.roundLeader) ∧
      ∀ faulty : Finset Replica,
        faulty.card ≤ config.numFaults →
          ∀ k, ∃ i ≤ config.numFaults,
            (run (k + i)).leaders.roundLeader ∉
              faulty := by
  rcases exists_roundRun (H := H) config hFaults hNodes with
    ⟨run, hRun, hAfter⟩
  refine ⟨run, hAfter, ?_, hRun.exists_index, ?_, ?_⟩
  · intro k
    exact ⟨(hRun.rotates k).all,
      (hRun.rotates k).lastLength,
      (hRun.rotates k).eligibleLength, hRun.last k⟩
  · intro k i j hOrder hWindow
    exact hRun.leader_ne k hOrder hWindow
  · intro faulty hFaulty k
    exact hRun.exists_honest_leader hFaulty k

/- Five nodes, two of them faulty. -/
def fiveNodes : Config where
  id := 0
  numNodes := 5
  numFaults := 2
  pkMap := Digest.keyMap [0, 1, 2, 3, 4]
  secretKeyBytes := Digest.keyOf 0
  benchMetricsNode := 0

theorem leaders_rotate_five :
    ∃ run : Nat → Context Digest,
      (∀ k,
        (Context.new fiveNodes).afterRounds k =
          .ok (run k)) ∧
      ∀ k i j, i < j → j ≤ 2 →
        (run (k + i)).leaders.roundLeader ≠
          (run (k + j)).leaders.roundLeader := by
  rcases leaders_rotate (H := Digest) fiveNodes
      (by decide) (by decide) with
    ⟨run, hAfter, _, _, hDistinct, _⟩
  exact ⟨run, hAfter, hDistinct⟩

end Artemis

end LibApollo
