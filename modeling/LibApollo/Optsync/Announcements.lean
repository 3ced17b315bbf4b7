import LibApollo.Synchs.Announcements
import LibApollo.Synchs.Equivocation
import LibApollo.Optsync.Agreement

/-
  The announcements of Sync HotStuff and Opt Sync nodes.

  In Opt Sync a commit has two triggers, a timer and a
  responsive certificate.  Whichever comes first announces
  the block; the other finds it committed.

  Key theorems include:
    * `protocol_posts`
    * `announcements_faithful`
-/

------------------------------------------------------------
-- Announcements in All Runs
------------------------------------------------------------

namespace LibApollo

namespace Optsync

open Synchs (Propose Protocol Config Node Event)
open Synchs (Announces Sealed Moves announcedBlocks)

variable {H : Type} [DecidableEq H] [Crypto H]

theorem moves_onVote
    {c : Certificate H}
    {p : Propose H}
    {cx cx' : Context H}
    {decision : Bool}
    (hVote : onVote c p cx = .ok (decision, cx')) :
    Moves cx.toContext cx'.toContext := by
  rcases onVote_frame hVote with ⟨_, _, _, hFrame⟩
  rw [hFrame]
  exact .refl

theorem protocol_posts :
    (protocol : Protocol H (Context H)).Posts where
  processMsg := by
    intro msg cx cx' hProcess
    cases processMsg_processed hProcess with
    | ignored => exact .refl
    | stored p block batch hBatch =>
        exact Synchs.moves_persistBatch cx.toContext hBatch
    | accepted p block batch _ hBatch =>
        exact Synchs.moves_castVote p cx.toContext hBatch
    | counted c p voted hVote => exact moves_onVote hVote
    | committed c p voted hVote =>
        exact (moves_onVote hVote).trans
          (Synchs.onCommit_moves p voted.toContext)
  propose := by
    intro batchHash batch rest cx cx' hPending hPropose
    rcases propose_ok hPropose with
      ⟨block, p, hBlock, _, rfl⟩
    exact Synchs.moves_dispatch p hPending hBlock

/-
  In every run in which a batch is stored before it is
  handed over for a proposal, a node announces a block once
  and with the transactions of its batch, and the genesis
  block never.
-/
theorem announcements_faithful
    (config : Config) :
    (∀ node : Node (Synchs.Context H),
      Machine.Reach Synchs.step (Sealed Synchs.protocol)
          (Synchs.Node.new config) node →
        Announces node.cx) ∧
      ∀ node : Node (Context H),
        Machine.Reach step (Sealed protocol)
            (Node.new config) node →
          Announces node.cx.toContext := by
  constructor
  · intro node hReach
    exact Synchs.protocol_posts.announces rfl hReach
  · intro node hReach
    exact protocol_posts.announces rfl hReach

/- Executable form of `Sealed`. -/
def sealedCheck
    (node : Node (Context H))
    (event : Event H) : Bool :=
  match event with
  | .batch batchHash _ =>
      (node.cx.batches.batchCache.lookup batchHash).isSome
  | _ => true

theorem sealed_of_sealedCheck
    (node : Node (Context H))
    (event : Event H)
    (hCheck : sealedCheck node event = true) :
    Sealed protocol node event := by
  intro batchHash batch hEvent
  subst hEvent
  rcases Option.isSome_iff_exists.mp hCheck with
    ⟨found, hCached⟩
  exact ⟨found, Or.inl hCached⟩

open Synchs (oneTx)

/- The block that a leader builds for `oneTx`. -/
def blockOfOneTx : Block Digest :=
  Block.extending Block.genesis 0 1 oneTx.hash

/-
  The leader proposes a block for a batch that was sealed,
  commits it on a vote of replica 1, and then its timer
  expires.
-/
theorem announcements_faithful_two_triggers :
    ∃ node : Node (Context Digest),
      Machine.Reach step (Sealed protocol)
          (Node.new (Config.small 0)) node ∧
        announcedBlocks node.cx.announced =
          [blockOfOneTx] ∧
        node.cx.commitQueue = [] ∧
        Announces node.cx.toContext := by
  have hRun :
      Machine.runCheck step sealedCheck
        (fun node : Node (Context Digest) =>
          decide
            (announcedBlocks node.cx.announced =
                [blockOfOneTx] ∧
              node.cx.commitQueue = []))
        (Node.new (Config.small 0))
        [.sealed oneTx, .batch oneTx.hash oneTx, .internal,
          .internal,
          .recv
            (.voteMsg (votesFor [1] blockOfOneTx)
              (proposalOf blockOfOneTx
                (Certificate.emptyCert Digest))),
          .internal, .timer 0] = true := by
    decide +kernel
  rcases Machine.Reach.of_runCheck sealed_of_sealedCheck
    hRun with ⟨node, hReach, hFinal⟩
  rcases of_decide_eq_true hFinal with ⟨hTold, hTimers⟩
  exact ⟨node, hReach, hTold, hTimers,
    (announcements_faithful (Config.small 0)).2 node
      hReach⟩

end Optsync

end LibApollo
