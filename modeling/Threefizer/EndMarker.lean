/-
# The end marker of the mac queue

`generateMAC` between a producer, which queues the chunks it is given one by
one, and a consumer, which takes out of the write queue what it finds. The
chunks are any number of chunks that are not `DONE`, and `DONE` at the end.

The thread is to leave `DONE` in its input queue. It does, in every run in
which the producer does not put `DONE` on the empty queue between the two looks
of the thread at its front (`keeps_done`). In a run that does, `DONE` is taken
out, no tag is put out and the thread stays in its loop (`loses_done`).
-/
import Threefizer.GenerateThread
import Threefizer.Skein3fish
import Threefizer.Lib.Lts

namespace Threefizer

open Words Queue

namespace EndMarker

/-- The producer of the mac queue, `generateMAC`, the consumer of the write queue. -/
inductive Party
  | producer | mac | consumer
  deriving DecidableEq, Repr

/-- What is still to be queued, and the thread with its queues. -/
structure State (sk : Skein) where
  feed : List Chunk
  fl : Flags
  mac : GenerateThread.Local sk
  mac_queue : Queue
  write_queue : Queue

variable {sk : Skein} (mc : MacCtx sk)

def start (cs : List Chunk) (fl : Flags) (que_size : ℕ) : State sk where
  feed := cs ++ [doneChunk]
  fl := fl
  mac := .init mc
  mac_queue := createQueue que_size
  write_queue := createQueue que_size

/-- The producer waits while the queue is full; the consumer waits for a chunk. -/
def step (s : State sk) : Party → Option (State sk)
  | .producer =>
    match s.feed with
    | [] => none
    | c :: cs => (enque c s.mac_queue).map fun q => { s with feed := cs, mac_queue := q }
  | .mac => (GenerateThread.step mc s.mac s.fl s.mac_queue s.write_queue).map
      fun (l, fl, inq, out) => { s with mac := l, fl := fl, mac_queue := inq, write_queue := out }
  | .consumer => s.write_queue.front.map fun _ => { s with write_queue := s.write_queue.deque }

/-- `DONE` has been queued and is no longer there. -/
def Consumed (s : State sk) : Prop := s.feed = [] ∧ ¬ s.mac_queue.HasDone

/-- `DONE` is not put on the empty queue while the thread stands behind the
look that found it empty. -/
def NotBetween (s : State sk) (a : Party) : Prop :=
  a = .producer → s.feed = [doneChunk] → s.mac.pc = .guard3 → s.mac_queue.front ≠ none

instance (s : State sk) (a : Party) : Decidable (NotBetween s a) := by
  unfold NotBetween; infer_instance

instance (s : State sk) : Decidable (Consumed s) := by
  unfold Consumed Queue.HasDone; infer_instance

variable {mc}

/-- The thread is wary, and `DONE` is on its way or on the queue. -/
structure Inv (s : State sk) : Prop where
  wary : GenerateThread.Wary s.mac s.mac_queue
  feed : s.feed ≠ [] → ∃ cs, s.feed = cs ++ [doneChunk] ∧ ∀ c ∈ cs, c.action ≠ .DONE
  kept : s.feed = [] → s.mac_queue.HasDone

theorem start_inv {cs : List Chunk} (hcs : ∀ c ∈ cs, c.action ≠ .DONE) (fl : Flags) (que_size : ℕ) :
    Inv (start mc cs fl que_size) where
  wary := GenerateThread.wary_of_ne nofun nofun
  feed := fun _ => ⟨cs, rfl, hcs⟩
  kept := fun h => by simp [start] at h

theorem Inv.step {s s' : State sk} {a : Party} (h : EndMarker.step mc s a = some s') (hok : NotBetween s a)
    (hI : Inv s) : Inv s' := by
  cases a with
  | producer =>
    simp only [EndMarker.step] at h
    split at h
    · cases h
    next c cs hfeed =>
      obtain ⟨q, hq, rfl⟩ := Option.map_eq_some_iff.mp h
      obtain ⟨ds, hds, hne⟩ := hI.feed (by rw [hfeed]; exact List.cons_ne_nil _ _)
      rw [hfeed] at hds
      cases ds with
      | nil =>
        -- the chunk queued is `DONE`
        cases hds
        exact
          { wary := hI.wary.enque hq fun _ => hok rfl hfeed
            feed := fun h => (h rfl).elim
            kept := fun _ => ⟨doneChunk, by rw [(enque_eq_some hq).1]; simp, rfl⟩ }
      | cons d ds =>
        cases hds
        exact
          { wary := hI.wary.enque hq fun hd => (hne c List.mem_cons_self hd).elim
            feed := fun _ => ⟨ds, rfl, fun e he => hne e (List.mem_cons_of_mem _ he)⟩
            kept := fun h => by simp at h }
  | mac =>
    obtain ⟨⟨l, fl, inq, out⟩, hx, rfl⟩ := Option.map_eq_some_iff.mp h
    obtain ⟨hw, hkeep⟩ := (GenerateThread.moves_of_step hx).wary hI.wary
    exact { wary := hw, feed := hI.feed, kept := fun h => hkeep (hI.kept h) }
  | consumer =>
    obtain ⟨c, -, rfl⟩ := Option.map_eq_some_iff.mp h
    exact { hI with }

/-- In a run in which `DONE` never comes to the empty queue between the two
looks of `generateMAC` at its front, `generateMAC` does not take `DONE` out. -/
theorem keeps_done (sk : Skein) (mc : MacCtx sk) (cs : List Chunk) (hcs : ∀ c ∈ cs, c.action ≠ .DONE)
    (fl : Flags) (que_size : ℕ) (s : State sk)
    (hs : Lts.Reach (step mc) NotBetween (start mc cs fl que_size) s) : ¬ Consumed s := by
  have hI : Inv s := hs.invariant (start_inv hcs fl que_size) fun _ _ _ hI hok hstep => hI.step hstep hok
  exact fun ⟨hfeed, hgone⟩ => hgone (hI.kept hfeed)

/-- One chunk of data. -/
def sampleChunk : Chunk := ⟨.GEN_MAC, [1, 2, 3, 4], 32⟩

/-- The MAC the samples use. -/
def sampleMac : MacCtx Skein3fish.skein := InitMacCtx Skein3fish.skein true .Skein256 [1, 2, 3, 4]

theorem keeps_done_sample :
    ∃ s, Lts.Reach (step sampleMac) NotBetween (start sampleMac [sampleChunk] .init QUE_SIZE) s ∧
      s.feed = [] ∧ s.mac.pc = .returned ∧ ¬ Consumed s := by
  have hrun : (Lts.run (step sampleMac) NotBetween (start sampleMac [sampleChunk] .init QUE_SIZE)
      ([.producer, .producer] ++ List.replicate 14 .mac)).any
        (fun s => decide (s.feed = [] ∧ s.mac.pc = .returned)) = true := by decide +kernel
  obtain ⟨s, hs, hp⟩ := Lts.Reach.of_run_any hrun
  obtain ⟨hfeed, hret⟩ := of_decide_eq_true hp
  exact ⟨s, hs, hfeed, hret, keeps_done _ _ _ (by decide) _ _ s hs⟩

/-- `generateMAC` can take `DONE` out while it is in its loop: it has found its
queue empty, `DONE` comes, and it finds a chunk there. -/
theorem loses_done :
    ∃ s, Lts.Reachable (step sampleMac) (start sampleMac [sampleChunk] .init QUE_SIZE) s ∧
      Consumed s ∧ s.mac.pc = .guard1 ∧ ∀ c ∈ s.write_queue.elements, c.action ≠ .MAC ∧ c.action ≠ .DONE := by
  have hrun : (Lts.run (step sampleMac) (fun _ _ => True) (start sampleMac [sampleChunk] .init QUE_SIZE)
      ([.producer] ++ List.replicate 7 .mac ++ [.producer] ++ List.replicate 2 .mac)).any
        (fun s => decide (Consumed s ∧ s.mac.pc = .guard1 ∧
          ∀ c ∈ s.write_queue.elements, c.action ≠ .MAC ∧ c.action ≠ .DONE)) = true := by decide +kernel
  obtain ⟨s, hs, hp⟩ := Lts.Reach.of_run_any hrun
  exact ⟨s, hs, of_decide_eq_true hp⟩

end EndMarker

end Threefizer
