/-
Nanio.Dgram.DrainedQueue — what a client makes of a queue that has been
drained.

`io_queue_is_empty` looks at `first`, `io_queue_get_block` at the blocks. A
drop keeps the last segment, so from the first put on `first` is never null
again: the two agree as long as nothing was put or something is left
(`queue_agrees_iff`). A client whose queue was drained keeps `POLLOUT` and
queues what it could send.
-/
import Nanio.Dgram.IoDgramClient
import Nanio.Queue.QueueLedger
import Nanio.Stream.StreamRules

namespace Nanio.Dgram

open Nanio.Lib Nanio.Queue Nanio.Sock
open Nanio.Stream (POLLIN POLLOUT has has_andNot)

/-! ## §1 What the client relies on -/

/-- On this queue the client is told that it is empty just when there is
nothing to get; then a `POLLOUT` event clears `POLLOUT`, and a datagram goes
to the kernel at once. -/
structure Agrees (m : QueueMem) : Prop where
  empty_iff : ioQueueIsEmpty m = true ↔ ioQueueGetBlock m = .ok none
  clears : ioQueueGetBlock m = .ok none → ∀ w : World, w.queue = m →
    ∃ cfg, step body (.start w) (.enter (.event POLLOUT)) = some cfg ∧
      cfg.ctl = .owner ∧ has cfg.st.events POLLOUT = false
  direct : ioQueueGetBlock m = .ok none → ∀ w : World, w.queue = m →
    ∀ to_ buf size type_ dest, size ≠ 0 → ioSockSetAddr (w.addr to_) = .ok dest →
      size ≤ (w.queue.bytes (.own buf)).length →
      ∃ cfg e k, step body (.start w) (.enter (.send to_ buf size type_)) = some cfg ∧
        cfg.ctl = .asking (.send to_ buf size type_) e
          (.sendto ⟨dest, (w.queue.bytes (.own buf)).take size⟩) k

/-! ## §2 When the two answers agree -/

theorem isEmpty_iff_first {m : QueueMem} : ioQueueIsEmpty m = true ↔ m.q.first = none := by
  simp [ioQueueIsEmpty]

/-- A client that is told that its queue is empty. -/
theorem agrees_of_empty {m : QueueMem} (hfirst : m.q.first = none) : Agrees m := by
  have hempty : ioQueueIsEmpty m = true := isEmpty_iff_first.mpr hfirst
  have hget : ioQueueGetBlock m = .ok none := by simp [ioQueueGetBlock, hfirst]
  refine ⟨iff_of_true hempty hget, fun _ w hw => ?_,
    fun _ w hw to_ buf size type_ dest hsize hdest hlen => ?_⟩
  · subst hw
    have hout : has POLLOUT POLLOUT = true := by decide
    have hin : has POLLOUT POLLIN = false := by decide
    refine ⟨⟨w.dropOut, .owner, [], [.leave (.event POLLOUT) w w.dropOut 0]⟩, ?_, rfl,
      has_andNot w.events POLLOUT⟩
    simp [Config.start, step_enter, settle, Bind.bind, Pure.pure, Prog.bind, Prog.read, Prog.modify,
      body, ioDgramClientEventHandler, sendPart, getBlock, dropOutIfEmpty, recvPart, World.dropOut,
      hout, hin, hget, hempty]
  · subst hw
    cases type_ <;>
      simp [Config.start, step_enter, settle, Bind.bind, Pure.pure, Prog.bind, Prog.read,
        Prog.query, body, ioDgramClientSendStatic, ioDgramClientSendDynamic, ioDgramClientSendLocal,
        ioDgramClientSend, sendto, destOf, bytesAt, hempty, hsize, hdest, hlen]

/-- The two answers agree when there is something to get. -/
theorem agrees_of_block {m : QueueMem} (hfirst : m.q.first ≠ none)
    (hget : ioQueueGetBlock m ≠ .ok none) : Agrees m :=
  ⟨iff_of_false (mt isEmpty_iff_first.mp hfirst) hget, fun h => absurd h hget,
    fun h => absurd h hget⟩

/-- **The two answers agree** on the queue that a sequence of operations
leaves, and the client does with it what it is for, just when nothing was
put or not everything was dropped. -/
theorem queue_agrees_iff (m : QueueMem) (ops : List QueueOp) {f : Fifo}
    (hf : Fifo.run ⟨fun n => m.buf (.own n), [], 0⟩ ops = some f) :
    ∃ m', (ioQueueInit m).run ops = .ok m' ∧
      (Agrees m' ↔ f.put = [] ∨ f.dropped < f.put.length) := by
  obtain ⟨m', r, hrun, hsim, -, hfirst⟩ :=
    runLedger_booked ops (sim_init m) (booked_init m) (iff_of_true rfl rfl) hf
  refine ⟨m', runLedger_run ops hrun, fun h => ?_, ?_⟩
  · by_cases hput : f.put = []
    · exact .inl hput
    · have hfull : m'.q.first ≠ none := mt hfirst.mp hput
      have hget : ioQueueGetBlock m' ≠ .ok none :=
        mt h.empty_iff.mpr (mt isEmpty_iff_first.mp hfull)
      exact .inr (Nat.lt_of_le_of_ne hsim.dropped_le (mt hsim.queueIs.get_null.mpr hget))
  · rintro (hput | hlt)
    · exact agrees_of_empty (hfirst.mpr hput)
    · have hget : ioQueueGetBlock m' ≠ .ok none :=
        mt hsim.queueIs.get_null.mp (Nat.ne_of_lt hlt)
      have hput : f.put ≠ [] := by
        rintro hnil
        simp [hnil] at hlt
      exact agrees_of_block (mt hfirst.mp hput) hget

/-- A block of two is left to be sent. -/
theorem queue_agrees_onePut :
    ∃ m', (ioQueueInit (oneBuffer [1, 2])).run [.put 0 0 2 .STATIC] = .ok m' ∧
      (Agrees m' ↔ ([⟨.STATIC, 0, 2, .pointer 0⟩] : List Item) = [] ∨ 0 < 1) :=
  queue_agrees_iff (oneBuffer [1, 2]) [.put 0 0 2 .STATIC] rfl

/-- One block put and dropped: there is nothing to get, and the queue does
not count as empty. -/
theorem drained_differs : ¬∀ (m : QueueMem) (ops : List QueueOp) (m' : QueueMem),
    (ioQueueInit m).run ops = .ok m' → Agrees m' := by
  intro h
  have hagree := (h (oneBuffer [1, 2]) [.put 0 0 2 .STATIC, .drop] _ rfl).empty_iff
  exact absurd (hagree.mpr rfl) (by decide)

/-- A client with such a queue keeps `POLLOUT` at an event that has nothing
to send. -/
theorem drained_waits {w : World} {f : Fifo} (hsim : Sim w.queue f)
    (hfirst : ioQueueIsEmpty w.queue = false) (hall : f.dropped = f.put.length) :
    ∃ cfg, step body (.start w) (.enter (.event POLLOUT)) = some cfg ∧ cfg.st = w := by
  have hget := hsim.queueIs.get_null.mpr hall
  have hout : has POLLOUT POLLOUT = true := by decide
  have hin : has POLLOUT POLLIN = false := by decide
  refine ⟨⟨w, .owner, [], [.leave (.event POLLOUT) w w 0]⟩, ?_, rfl⟩
  simp [Config.start, step_enter, settle, Bind.bind, Pure.pure, Prog.bind, Prog.read,
    body, ioDgramClientEventHandler, sendPart, getBlock, dropOutIfEmpty, recvPart, hout, hin, hget,
    hfirst]

end Nanio.Dgram
