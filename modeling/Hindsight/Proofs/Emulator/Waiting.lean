import Hindsight.Proofs.Emulator.Reads

/-!
# Waiting and resuming

A request for a word that is not there leaves the machine at the trap, with all its registers and
all its memory.  What it needs to be made again is there, whatever registers the trap names and
wherever it stands.  So the request is made again as often as the machine is made to go on, and
once there is a word, it is served as if it had been made for the first time.  Only the count tells
that it has been made in vain.

## Main definitions

* `Machine.Requests` — the machine is about to ask for a word of input.
* `Machine.waiting`, `Machine.given` — the machine that has asked in vain, or has been served.
* `Machine.unblocked`, `Machine.later` — waiting called off, and more instructions counted.

## Main results

* `Emulator.step_of_requests_of_none`, `Emulator.step_of_requests_of_some` — the two answers to a
  request.
* `Emulator.requests_of_step` — nothing else makes a machine wait.
* `Emulator.machineAfter_of_requests`, `Emulator.step_unblocked_machineAfter` — what any number of
  requests in vain leaves, and how the next one is served.
* `Emulator.blocked_read_resumes` — **a read that has blocked can be resumed.**
-/

namespace Hindsight

/-! ### Machines that ask and wait -/

namespace Machine

/-- The machine is about to ask for a word of input: its instruction is a trap for the reading
service. -/
structure Requests (m : Machine) (d a b : UInt8) : Prop where
  fetch_eq : Instruction.fetch? m m.pc = some (.register .trap d a b)
  service_eq : m.operand (fieldReg d) = 1

/-- The machine with more instructions counted. -/
def later (m : Machine) (n : UInt64) : Machine := { m with count := m.count + n }

/-- The machine when it waits no longer. -/
def unblocked (m : Machine) : Machine := { m with blocked := false }

/-- The machine after asking for a word in vain `n` times. -/
def waiting (m : Machine) (n : UInt64) : Machine :=
  { m with
    ir := m.mem m.pc
    control := { m.control with status := 1 }
    count := m.count + n
    blocked := true }

/-- The machine after asking for a word and being given `w`. -/
def given (m : Machine) (a : Reg) (w : Word) : Machine :=
  Effect.writeReg
    { m with
      pc := m.pc + 1
      ir := m.mem m.pc
      control := { m.control with status := 1 }
      count := m.count + 1 }
    (a, w)

variable {m : Machine} {d a b : UInt8}

/-- **A machine that has asked in vain asks again**, whether it has been unblocked or not. -/
theorem Requests.waiting (h : m.Requests d a b) (n : UInt64) :
    (m.waiting n).Requests d a b ∧ (m.waiting n).unblocked.Requests d a b :=
  ⟨⟨h.fetch_eq, h.service_eq⟩, ⟨h.fetch_eq, h.service_eq⟩⟩

/-- Asking in vain again adds to what there was. -/
theorem waiting_waiting (m : Machine) (n k : UInt64) :
    (m.waiting n).waiting k = m.waiting (n + k) := by
  have hcount : m.count + n + k = m.count + (n + k) := UInt64.add_assoc ..
  unfold waiting
  rw [hcount]
  rfl

theorem waiting_later (m : Machine) (n k : UInt64) :
    (m.waiting n).later k = m.waiting (n + k) := by
  have hcount : m.count + n + k = m.count + (n + k) := UInt64.add_assoc ..
  unfold waiting later
  rw [hcount]

theorem waiting_unblocked (m : Machine) (n k : UInt64) :
    (m.waiting n).unblocked.waiting k = m.waiting (n + k) := waiting_waiting m n k

theorem toProcessor_given (m : Machine) (r : Reg) (w : Word) :
    (m.given r w).toProcessor
      = { m.toProcessor.withStatus 1 with
          pc := m.pc + 1, ir := m.mem m.pc, count := m.count + 1 } :=
  Effect.toProcessor_writeReg _ _

theorem reg_given (m : Machine) (r : Reg) (w : Word) (s : Reg) :
    (m.given r w).reg s = if r = s ∧ s ≠ 0 then w else m.reg s :=
  Effect.reg_writeReg _ (r, w) s

theorem mem_given (m : Machine) (r : Reg) (w : Word) (x : Address) :
    (m.given r w).mem x = m.mem x :=
  Effect.mem_writeReg _ (r, w) x

/-- **Being given a word** after asking in vain leaves nothing of that but the count. -/
theorem given_unblocked (hblocked : m.blocked = false) (n : UInt64) (r : Reg) (w : Word) :
    (m.waiting n).unblocked.given r w = (m.given r w).later n := by
  have hcount : m.count + n + 1 = m.count + 1 + n := by
    rw [UInt64.add_assoc, UInt64.add_comm n, UInt64.add_assoc]
  -- only the scalars could differ, since waiting touches no cell
  refine ext_cells ?_ (fun s => ?_) fun x => ?_
  · show _ = { (m.given r w).toProcessor with count := (m.given r w).toProcessor.count + n }
    rw [toProcessor_given, toProcessor_given]
    simp only [unblocked, waiting, Processor.withStatus, hcount, hblocked]
    rfl
  · show _ = (m.given r w).reg s
    rw [reg_given, reg_given]
    rfl
  · show _ = (m.given r w).mem x
    rw [mem_given, mem_given]
    rfl

end Machine

namespace Emulator

variable {e e' : Emulator} {m m' : Machine} {d a b : UInt8}

/-! ### Steps of such machines -/

/-- **A request that is served** takes the word, and the machine goes on. -/
theorem step_of_requests_of_some (h : m.Requests d a b) {w : Word}
    (hpeek : e.input.peek = some w) :
    e.step m = (.ok ⟨.ofList [fieldReg d], .ofList ([(fieldReg a).val].filter (· ≠ 0)), []⟩,
      e.note (.register .trap) true, m.given (fieldReg a) w) := by
  have heffect := (Instruction.effect_of_service h.service_eq a b (fetched m 1)).1 w
  rw [← hpeek] at heffect
  exact step_eq_ok_iff.mpr ⟨_, _, h.fetch_eq, heffect, rfl, rfl, rfl⟩

/-- **A request in vain** leaves the machine at the trap, waiting. -/
theorem step_of_requests_of_none (h : m.Requests d a b) (hpeek : e.input.peek = none) :
    e.step m = (.ok ⟨.ofList [fieldReg d], .ofList [], []⟩,
      e.note (.register .trap) false, m.waiting 1) := by
  have heffect := (Instruction.effect_of_service h.service_eq a b (fetched m 1)).2
  rw [← hpeek] at heffect
  exact step_eq_ok_iff.mpr ⟨_, _, h.fetch_eq, heffect, rfl, rfl, rfl⟩

/-- **Nothing but a request in vain** makes a machine wait. -/
theorem requests_of_step {report : Except Fault Access} (hblocked : m.blocked = false)
    (hstep : e.step m = (report, e', m')) (hwaits : m'.blocked = true) :
    e.input.peek = none ∧ ∃ d a b, m.Requests d a b := by
  have hne : m'.blocked ≠ m.blocked := by
    rw [hwaits, hblocked]
    exact Bool.noConfusion
  cases report with
  | error fault =>
    -- a fault changes other scalars only
    obtain ⟨-, pc, ir, status, rfl⟩ := step_error hstep
    exact absurd rfl hne
  | ok access =>
    obtain ⟨i, hfetch, huses⟩ := exists_usesInput hstep
    cases huses with
    | nothing hrequest hinput hkeeps => exact absurd hkeeps hne
    | reads r w hrequest hpeek hinput hreads => exact absurd hreads.blocked_eq hne
    | waits r hrequest hpeek hinput hwait =>
      obtain ⟨d, a, b, rfl, hcode, -⟩ := Instruction.readRequest?_eq_some_iff.mp hrequest
      exact ⟨hpeek, d, a, b, hfetch, hcode⟩

/-- **Any number of requests in vain** leave the machine as the first one has, and the input as it
was. -/
theorem machineAfter_of_requests (h : m.Requests d a b) (hpeek : e.input.peek = none) (n : Nat) :
    engine.machineAfter e m (n + 1) = m.waiting (.ofNat (n + 1)) ∧
      (engine.stateAfter e m (n + 1)).input = e.input := by
  induction n with
  | zero =>
    obtain ⟨-, hstate, hmachine⟩ := after_succ_of_step (n := 0) (step_of_requests_of_none h hpeek)
    exact ⟨hmachine, by rw [hstate]; rfl⟩
  | succ n ih =>
    obtain ⟨hmachine, hinput⟩ := ih
    -- by now the machine has asked in vain, and it asks again of the same empty input
    have hrequests := (h.waiting (.ofNat (n + 1))).1
    rw [← hmachine] at hrequests
    have hnone : (engine.stateAfter e m (n + 1)).input.peek = none := by rw [hinput, hpeek]
    obtain ⟨-, hstate, hnext⟩ := after_succ_of_step (step_of_requests_of_none hrequests hnone)
    refine ⟨?_, ?_⟩
    · rw [hnext, hmachine, Machine.waiting_waiting, UInt64.ofNat_add (n + 1) 1]
      rfl
    · rw [hstate, ← hinput]
      rfl

/-- However often a word has been asked for in vain, it is then given as it is the first time. -/
theorem step_unblocked_machineAfter (h : m.Requests d a b) (hblocked : m.blocked = false)
    (hpeek : e.input.peek = none) (n : Nat) {f : Emulator} {w : Word}
    (hw : f.input.peek = some w) :
    ∃ access f' m', f.step m = (.ok access, f', m') ∧
      f.step (engine.machineAfter e m (n + 1)).unblocked
        = (.ok access, f', m'.later (.ofNat (n + 1))) := by
  refine ⟨_, _, _, step_of_requests_of_some h hw, ?_⟩
  rw [(machineAfter_of_requests h hpeek n).1, step_of_requests_of_some (h.waiting _).2 hw,
    Machine.given_unblocked hblocked]

/-! ### Resuming a read -/

/-- **A read that has blocked can be resumed** as if it had never happened.  If a step makes a
machine wait, then the input has been exhausted, and the machine can be unblocked and given a word:
the step then gives the report, the emulator and the machine that it gives in the first place if the
word is there, but for one more instruction counted.  Without a word the machine that waits,
unblocked or not, comes back to where it is, again but for the count; and however often it does so,
it can still be given a word. -/
theorem blocked_read_resumes {report : Except Fault Access} (hblocked : m.blocked = false)
    (hcount : m.count.toNat < 2 ^ 64 - 2) (hstep : e.step m = (report, e', m'))
    (hwaits : m'.blocked = true) :
    (∀ (f : Emulator) (w : Word), f.input.peek = some w → ∃ access f' n,
        f.step m = (.ok access, f', n) ∧ f.step m'.unblocked = (.ok access, f', n.later 1) ∧
          (n.later 1).count.toNat = n.count.toNat + 1) ∧
      (∀ f : Emulator, f.input.peek = none → ∃ f',
        f.step m' = (report, f', m'.later 1) ∧ f.step m'.unblocked = (report, f', m'.later 1)) ∧
      (m'.later 1).count.toNat = m'.count.toNat + 1 ∧ e.input.peek = none ∧
      ∀ (k : Nat) (f : Emulator) (w : Word), f.input.peek = some w → ∃ access f' n,
        f.step m = (.ok access, f', n) ∧
          f.step (engine.machineAfter e m (k + 1)).unblocked
            = (.ok access, f', n.later (.ofNat (k + 1))) := by
  obtain ⟨hempty, d, a, b, h⟩ := requests_of_step hblocked hstep hwaits
  obtain ⟨rfl, hrest⟩ := Prod.mk.inj (hstep.symm.trans (step_of_requests_of_none h hempty))
  obtain ⟨-, rfl⟩ := Prod.mk.inj hrest
  obtain ⟨hagain, hresumed⟩ := h.waiting 1
  -- both steps have counted, and neither count has wrapped
  have htwice : (m.count + 1 + 1).toNat = (m.count + 1).toNat + 1 := by
    have hone : (1 : UInt64).toNat = 1 := rfl
    rw [UInt64.toNat_add, UInt64.toNat_add]
    omega
  refine ⟨fun f w hpeek => ?_, fun f hpeek => ?_, htwice, hempty, fun k f w hpeek =>
    step_unblocked_machineAfter h hblocked hempty k hpeek⟩
  · refine ⟨_, _, _, step_of_requests_of_some h hpeek, ?_, ?_⟩
    · rw [step_of_requests_of_some hresumed hpeek, Machine.given_unblocked hblocked]
    · rw [Machine.later, Machine.toProcessor_given]
      exact htwice
  · rw [step_of_requests_of_none hagain hpeek, step_of_requests_of_none hresumed hpeek,
      Machine.waiting_waiting, Machine.waiting_unblocked, Machine.waiting_later]
    exact ⟨_, rfl, rfl⟩

/-- A machine about to execute `trap R1,R1,R0` at the last address, which asks for a word in place
of the service code. -/
def asking : Machine := { (Machine.zero.setMem 0xffff 0xd110).setReg 1 1 with pc := 0xffff }

/-- The word given later is the one that is given at once, and the service code is lost only
then. -/
theorem blocked_read_resumes_asking :
    ∃ report e' m', (ofInput []).step asking = (report, e', m') ∧ m'.blocked = true ∧
      m'.reg 1 = 1 ∧ (∃ f', (ofInput []).step m' = (report, f', m'.later 1)) ∧
      ∃ access f' n, (ofInput [7]).step m'.unblocked = (.ok access, f', n.later 1) ∧
        (ofInput [7]).step asking = (.ok access, f', n) ∧ n.reg 1 = 7 ∧ n.pc = 0 ∧
        (n.later 1).count.toNat = 2 := by
  have hword : asking.mem 0xffff = 0xd110 := Machine.mem_setMem_self Machine.zero 0xffff 0xd110
  have h : asking.Requests 1 1 0 := by
    refine ⟨?_, rfl⟩
    show Instruction.decode (asking.mem 0xffff) (asking.mem 0) = _
    rw [hword]
    rfl
  have hstep := step_of_requests_of_none (e := ofInput []) h rfl
  obtain ⟨hresumes, hwaits, -, -⟩ := blocked_read_resumes rfl (by decide) hstep rfl
  obtain ⟨access, f', n, hgiven, hresumed, hcount⟩ := hresumes (ofInput [7]) 7 rfl
  obtain ⟨f'', hagain, -⟩ := hwaits (ofInput []) rfl
  have hn : n = asking.given 1 7 := by
    have hserved := step_of_requests_of_some (e := ofInput [7]) h rfl
    exact (congrArg (·.2.2) hgiven).symm.trans (congrArg (·.2.2) hserved)
  refine ⟨_, _, _, hstep, rfl, rfl, ⟨f'', hagain⟩, access, f', n, hresumed, hgiven, ?_, ?_, ?_⟩
  · rw [hn]
    rfl
  · rw [hn]
    rfl
  · rw [hcount, hn]
    rfl

end Emulator

end Hindsight
