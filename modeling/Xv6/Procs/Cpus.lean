/-
# Xv6.Procs.Cpus -- one CPU per running process

Two invariants of the machine, for any number of CPUs.

* `Seats`: a CPU on the stack of a process has it as `c->proc` and the process is RUNNING; a
  RUNNING process has such a CPU; no process is the `c->proc` of two. `ptable.lock` is held by the
  one CPU that is inside a section, across `swtch` too: a thread that is not running comes back
  with the lock, which is what the scheduler hands it.
* `Owners`: an EMBRYO belongs to the one `fork` that made it, until that `fork` gives up or makes it
  RUNNABLE.

Each needs the other: `fork` writes the state of its embryo without the lock.
-/
import Xv6.Procs.Turns

namespace Xv6.Procs
open Lib Sched Function
open Sched.Smp (Pickable dispatched)
set_option autoImplicit false

variable {F : Type}

/-! ## The invariants -/

variable {C : Type}

structure Seats (k : Control C F) (d : Ptable F) : Prop where
  idle : ∀ c, k.ctx c = .loop ∨ k.ctx c = .pick → k.cur c = none
  runs : ∀ c, k.ctx c = .run → ∃ i, k.cur c = some i ∧ (d.proc i).state = .RUNNING
  left : ∀ c i, k.ctx c = .back → k.cur c = some i → (d.proc i).state ≠ .RUNNING
  seat : ∀ i, (d.proc i).state = .RUNNING → ∃ c, k.ctx c = .run ∧ k.cur c = some i
  apart : ∀ c c' i, k.cur c = some i → k.cur c' = some i → c = c'
  lock : ∀ c, k.lock = some c ↔ k.holds c = true
  under : ∀ c, k.irq c ≠ .none → k.base c = false
  parked : ∀ i, Parked (d.proc i) → (k.pc i).holds = true
  sane : ∀ i, (k.pc i).sane = true

structure Owners (k : Control C F) (d : Ptable F) : Prop where
  embryo : ∀ i np, (k.pc i).owns = some np → (d.proc np).state = .EMBRYO
  single : ∀ i j np, (k.pc i).owns = some np → (k.pc j).owns = some np → i = j
  made : ∀ i np, (k.pc i).made = some np → k.pc np = .forkret

/-! ## The lock -/

section Lock

variable {k k' : Control C F} {c e : C}

theorem Control.holds_of_idle (idle : k.irq c = .none) : k.holds c = k.base c := by
  simp [Control.holds, idle]

/-- What a CPU holds depends on its own context only. -/
theorem Control.base_congr (ctx : k'.ctx e = k.ctx e) (cur : k'.cur e = k.cur e)
    (pc : ∀ i, k.ctx e = .run → k.cur e = some i → (k'.pc i).holds = (k.pc i).holds) :
    k'.base e = k.base e := by
  unfold Control.base
  rw [ctx, cur]
  cases here : k.ctx e with
  | run =>
    cases mine : k.cur e with
    | none => rfl
    | some i => exact pc i here mine
  | _ => rfl

theorem Control.holds_congr (irq : k'.irq e = k.irq e) (base : k'.base e = k.base e) :
    k'.holds e = k.holds e := by
  cases here : k.irq e with
  | none => rw [holds_of_idle here, holds_of_idle (irq.trans here), base]
  | lock duty | inside duty => simp [Control.holds, irq, here]

/-- What one step of CPU `c` does with the lock. -/
inductive Passes (k k' : Control C F) (c : C) : Prop where
  | keep (lock : k'.lock = k.lock) (holds : k'.holds c = k.holds c)
  | take (free : k.lock = none) (lock : k'.lock = some c) (holds : k'.holds c = true)
  | drop (held : k.lock = some c) (lock : k'.lock = none) (holds : k'.holds c = false)

/-- The lock goes on naming the one CPU inside a section. -/
theorem Passes.lock (passes : Passes k k' c)
    (others : ∀ e, e ≠ c → k'.irq e = k.irq e ∧ k'.base e = k.base e)
    (locked : ∀ e, k.lock = some e ↔ k.holds e = true) (e : C) :
    k'.lock = some e ↔ k'.holds e = true := by
  by_cases here : e = c
  · subst here
    cases passes with
    | keep lock holds => rw [lock, holds, locked]
    | take free lock holds => simp [lock, holds]
    | drop held lock holds => simp [lock, holds]
  · have other : k'.holds e = k.holds e := Control.holds_congr (others e here).1 (others e here).2
    rw [other, ← locked]
    cases passes with
    | keep lock holds => rw [lock]
    | take free lock holds => simp [lock, free, Ne.symm here]
    | drop held lock holds => simp [lock, held, Ne.symm here]

end Lock

/-! ## Steps of a thread -/

section Thread

variable {k k' : Control C F} {d d' : Ptable F} {c : C} {me : Slot} {op : LockOp} {p : Point F}
  {b : Body F}

/-- A turn moves its own thread, and `allocproc` gives an embryo its first context. -/
structure Turned (k k' : Control C F) (c : C) (me : Slot) (p : Point F) (b : Body F) : Prop where
  cur : k'.cur = k.cur
  irq : k'.irq = k.irq
  ctx : ∀ e, e ≠ c → k'.ctx e = k.ctx e
  fresh : ∀ np, b = .fresh np → k'.pc np = .forkret
  self : b ≠ .fresh me → k'.pc me = p
  others : ∀ i, i ≠ me → b ≠ .fresh i → k'.pc i = k.pc i

theorem Seats.self (seats : Seats k d) (running : k.thread c = some me) :
    (d.proc me).state = .RUNNING := by
  obtain ⟨-, inside, mine⟩ := Control.thread_eq_some running
  obtain ⟨i, cur, live⟩ := seats.runs c inside
  rw [mine] at cur
  cases cur
  exact live

/-- A CPU that has a process is running it, or is back from it with the lock. -/
theorem Seats.has (seats : Seats k d) {i : Slot} (mine : k.cur c = some i) :
    (d.proc i).state = .RUNNING ∨ k.lock = some c := by
  cases ctx : k.ctx c with
  | loop => simp [seats.idle c (.inl ctx)] at mine
  | pick => simp [seats.idle c (.inr ctx)] at mine
  | run =>
    obtain ⟨j, mine', live⟩ := seats.runs c ctx
    rw [mine] at mine'
    cases mine'
    exact .inl live
  | back =>
    have base : k.base c = true := by simp [Control.base, ctx]
    by_cases quiet : k.irq c = .none
    · exact .inr ((seats.lock c).mpr (by rw [Control.holds_of_idle quiet, base]))
    · rw [seats.under c quiet] at base
      cases base

/-- A step of CPU `c` that the processes of the other CPUs do not notice. -/
theorem Seats.moved (seats : Seats k d) (cur : ∀ e, e ≠ c → k'.cur e = k.cur e)
    (ctx : ∀ e, e ≠ c → k'.ctx e = k.ctx e)
    (others : ∀ e i, e ≠ c → k.cur e = some i →
      k'.cur c ≠ some i ∧ ((d'.proc i).state = .RUNNING ↔ (d.proc i).state = .RUNNING))
    (idle : k'.ctx c = .loop ∨ k'.ctx c = .pick → k'.cur c = none)
    (runs : k'.ctx c = .run → ∃ i, k'.cur c = some i ∧ (d'.proc i).state = .RUNNING)
    (left : ∀ i, k'.ctx c = .back → k'.cur c = some i → (d'.proc i).state ≠ .RUNNING)
    (seat : ∀ i, (d'.proc i).state = .RUNNING →
      (k'.ctx c = .run ∧ k'.cur c = some i) ∨ ∃ e, e ≠ c ∧ k.ctx e = .run ∧ k.cur e = some i)
    (lock : ∀ e, k'.lock = some e ↔ k'.holds e = true)
    (under : ∀ e, k'.irq e ≠ .none → k'.base e = false)
    (parked : ∀ i, Parked (d'.proc i) → (k'.pc i).holds = true)
    (sane : ∀ i, (k'.pc i).sane = true) : Seats k' d' where
  idle e := by
    by_cases same : e = c
    · rwa [same]
    · rw [ctx e same, cur e same]
      exact seats.idle e
  runs e inside := by
    by_cases same : e = c
    · exact same ▸ runs (same ▸ inside)
    · rw [ctx e same] at inside
      obtain ⟨i, theirs, live⟩ := seats.runs e inside
      exact ⟨i, (cur e same).trans theirs, (others e i same theirs).2.mpr live⟩
  left e i back theirs := by
    by_cases same : e = c
    · exact left i (same ▸ back) (same ▸ theirs)
    · rw [ctx e same] at back
      rw [cur e same] at theirs
      rw [Ne, (others e i same theirs).2]
      exact seats.left e i back theirs
  seat i live := by
    rcases seat i live with here | ⟨e, same, inside, theirs⟩
    · exact ⟨c, here⟩
    · exact ⟨e, (ctx e same).trans inside, (cur e same).trans theirs⟩
  apart e e' i first second := by
    by_cases same : e = c <;> by_cases same' : e' = c
    · rw [same, same']
    · rw [cur e' same'] at second
      exact absurd (same ▸ first) (others e' i same' second).1
    · rw [cur e same] at first
      exact absurd (same' ▸ second) (others e i same first).1
    · rw [cur e same] at first
      rw [cur e' same'] at second
      exact seats.apart e e' i first second
  lock := lock
  under := under
  parked := parked
  sane := sane

/-- The embryo that gets a context is not running. -/
theorem Owners.fresh (owners : Owners k d) (turn : Turn d me (k.pc me) op p b) {np : Slot}
    (fresh : b = .fresh np) : (d.proc np).state = .EMBRYO := by
  subst fresh
  cases turn.custody with
  | fresh _ owns owns' made' => exact owners.embryo me np owns
  | keeps plain owns made => cases plain

/-- Where every thread is after a turn. -/
theorem Turned.pc (shape : Turned k k' c me p b) (seats : Seats k d) (owners : Owners k d)
    (running : k.thread c = some me) (turn : Turn d me (k.pc me) op p b) :
    k'.pc me = p ∧ ∀ i, i ≠ me → k'.pc i = k.pc i ∨ b = .fresh i ∧ k'.pc i = .forkret := by
  constructor
  · apply shape.self
    intro fresh
    have embryo := owners.fresh turn fresh
    rw [seats.self running] at embryo
    cases embryo
  · intro i other
    by_cases fresh : b = .fresh i
    · exact .inr ⟨fresh, shape.fresh i fresh⟩
    · exact .inl (shape.others i other fresh)

/-- The other CPUs do not notice a turn. -/
theorem Turned.base (shape : Turned k k' c me p b) (seats : Seats k d) (owners : Owners k d)
    (running : k.thread c = some me) (turn : Turn d me (k.pc me) op p b) (e : C) (other : e ≠ c) :
    k'.irq e = k.irq e ∧ k'.base e = k.base e := by
  obtain ⟨-, -, mine⟩ := Control.thread_eq_some running
  refine ⟨congrFun shape.irq e, ?_⟩
  apply Control.base_congr (shape.ctx e other) (congrFun shape.cur e)
  intro i inside theirs
  obtain ⟨j, theirs', live⟩ := seats.runs e inside
  rw [theirs] at theirs'
  cases theirs'
  have apart : i ≠ me := by
    rintro rfl
    exact other (seats.apart e c i theirs mine)
  rcases (shape.pc seats owners running turn).2 i apart with same | ⟨fresh, -⟩
  · rw [same]
  · have embryo := owners.fresh turn fresh
    rw [live] at embryo
    cases embryo

/-- The embryos after a turn, from what the thread owns now and what the others owned before. -/
theorem Turned.owners (shape : Turned k k' c me p b) (seats : Seats k d) (owners : Owners k d)
    (running : k.thread c = some me) (turn : Turn d me (k.pc me) op p b)
    (mine : ∀ np, p.owns = some np → (d'.proc np).state = .EMBRYO)
    (theirs : ∀ i np, i ≠ me → (k.pc i).owns = some np → (d'.proc np).state = .EMBRYO)
    (apart : ∀ i np, i ≠ me → p.owns = some np → (k.pc i).owns ≠ some np)
    (made : ∀ np, p.made = some np → k'.pc np = .forkret) : Owners k' d' := by
  obtain ⟨here, pcs⟩ := shape.pc seats owners running turn
  have owned : ∀ i np, i ≠ me → (k'.pc i).owns = some np → (k.pc i).owns = some np := by
    intro i np other owns
    rcases pcs i other with same | ⟨-, started⟩
    · rwa [same] at owns
    · rw [started] at owns
      cases owns
  constructor
  case embryo =>
    intro i np owns
    by_cases same : i = me
    · rw [same, here] at owns
      exact mine np owns
    · exact theirs i np same (owned i np same owns)
  case single =>
    intro i j np first second
    by_cases same : i = me <;> by_cases same' : j = me
    · rw [same, same']
    · rw [same, here] at first
      exact absurd (owned j np same' second) (apart j np same' first)
    · rw [same', here] at second
      exact absurd (owned i np same first) (apart i np same second)
    · exact owners.single i j np (owned i np same first) (owned j np same' second)
  case made =>
    intro i np has
    by_cases same : i = me
    · rw [same, here] at has
      exact made np has
    · rcases pcs i same with kept | ⟨-, started⟩
      · rw [kept] at has
        have embryo := owners.embryo i np (Point.owns_of_made has)
        have other : np ≠ me := by
          rintro rfl
          rw [seats.self running] at embryo
          cases embryo
        rcases pcs np other with same' | ⟨-, started⟩
        · rw [same']
          exact owners.made i np has
        · exact started
      · rw [started] at has
        cases has

variable [DecidableEq C]

theorem Control.does_eq_some (did : k.does c op = some k') :
    k'.cur = k.cur ∧ k'.irq = k.irq ∧ k'.pc = k.pc ∧ ∀ e, e ≠ c → k'.ctx e = k.ctx e := by
  cases op with
  | keep =>
    cases did
    exact ⟨rfl, rfl, rfl, fun _ _ => rfl⟩
  | take =>
    obtain ⟨-, rfl⟩ := Control.take_eq_some did
    exact ⟨rfl, rfl, rfl, fun _ _ => rfl⟩
  | drop =>
    obtain ⟨-, rfl⟩ := Control.drop_eq_some did
    exact ⟨rfl, rfl, rfl, fun _ _ => rfl⟩
  | swtch =>
    simp only [Control.does, Control.swtch] at did
    split at did
    · cases did
      exact ⟨rfl, rfl, rfl, fun e other => update_of_ne other _ _⟩
    · cases did

theorem Control.turn_turned (turned : k.turn c me op p b = some k') : Turned k k' c me p b := by
  simp only [Control.turn, Option.map_eq_some_iff] at turned
  obtain ⟨k₁, did, rfl⟩ := turned
  obtain ⟨cur, irq, pc, ctx⟩ := Control.does_eq_some did
  cases b with
  | fresh np =>
    refine ⟨cur, irq, ctx, ?_, ?_, ?_⟩
    · intro j same
      cases same
      simp [Control.starts, Control.goto]
    · intro other
      have apart : me ≠ np := fun same => other (by rw [same])
      simp [Control.starts, Control.goto, apart]
    · intro i other fresh
      have apart : i ≠ np := fun same => fresh (by rw [same])
      simp [Control.starts, Control.goto, apart, other, pc]
  | _ =>
    refine ⟨cur, irq, ctx, ?_, ?_, ?_⟩
    · rintro _ ⟨⟩
    · intro _
      simp [Control.starts, Control.goto]
    · intro i other _
      simp [Control.starts, Control.goto, other, pc]

/-- What a turn does with the lock and the context of its CPU. -/
theorem Control.turn_lock (turned : k.turn c me op p b = some k') :
    (op = .keep ∧ k'.lock = k.lock ∧ k'.ctx = k.ctx) ∨
      (op = .take ∧ k.lock = none ∧ k'.lock = some c ∧ k'.ctx = k.ctx) ∨
      (op = .drop ∧ k.lock = some c ∧ k'.lock = none ∧ k'.ctx = k.ctx) ∨
      (op = .swtch ∧ k'.lock = k.lock ∧ k'.ctx c = .back) := by
  simp only [Control.turn, Option.map_eq_some_iff] at turned
  obtain ⟨k₁, did, rfl⟩ := turned
  have frame : ∀ (k : Control C F), (k.starts b).lock = k.lock ∧ (k.starts b).ctx = k.ctx := by
    intro k
    cases b <;> exact ⟨rfl, rfl⟩
  rw [(frame _).1, (frame _).2]
  cases op with
  | keep =>
    cases did
    exact .inl ⟨rfl, rfl, rfl⟩
  | take =>
    obtain ⟨free, rfl⟩ := Control.take_eq_some did
    exact .inr (.inl ⟨rfl, free, rfl, rfl⟩)
  | drop =>
    obtain ⟨held, rfl⟩ := Control.drop_eq_some did
    exact .inr (.inr (.inl ⟨rfl, held, rfl, rfl⟩))
  | swtch =>
    simp only [Control.does, Control.swtch] at did
    split at did
    · cases did
      exact .inr (.inr (.inr ⟨rfl, rfl, update_self ..⟩))
    · cases did

theorem Turned.passes (shape : Turned k k' c me p b) (seats : Seats k d) (owners : Owners k d)
    (running : k.thread c = some me) (turn : Turn d me (k.pc me) op p b)
    (turned : k.turn c me op p b = some k') : Passes k k' c := by
  obtain ⟨idle, inside, mine⟩ := Control.thread_eq_some running
  have idle' : k'.irq c = .none := (congrFun shape.irq c).trans idle
  have mine' : k'.cur c = some me := (congrFun shape.cur c).trans mine
  have here := (shape.pc seats owners running turn).1
  have fits := turn.fits (seats.sane me)
  have before : k.holds c = (k.pc me).holds := by
    simp [Control.holds_of_idle idle, Control.base, inside, mine]
  have after : k'.ctx = k.ctx → k'.holds c = p.holds := by
    intro same
    simp [Control.holds_of_idle idle', Control.base, same, inside, mine', here]
  rcases Control.turn_lock turned with
    ⟨rfl, lock, ctx⟩ | ⟨rfl, free, lock, ctx⟩ | ⟨rfl, held, lock, ctx⟩ | ⟨rfl, lock, back⟩
  · exact .keep lock (by rw [after ctx, before, show p.holds = _ from fits])
  · exact .take free lock (by rw [after ctx, fits.2])
  · exact .drop held lock (by rw [after ctx, fits.2])
  · refine .keep lock ?_
    rw [before, fits.1]
    simp [Control.holds_of_idle idle', Control.base, back]

variable [Zero F] [One F] [Add F] {tenth : F}

theorem Seats.turn (seats : Seats k d) (owners : Owners k d) (running : k.thread c = some me)
    (turn : Turn d me (k.pc me) op p b) (turned : k.turn c me op p b = some k')
    (ran : b.run tenth d = some d') : Seats k' d' := by
  obtain ⟨idle, inside, mine⟩ := Control.thread_eq_some running
  have shape := Control.turn_turned turned
  obtain ⟨here, pcs⟩ := shape.pc seats owners running turn
  have others := shape.base seats owners running turn
  have apart : ∀ e i, e ≠ c → k.cur e = some i → i ≠ me := by
    rintro e i other theirs rfl
    exact other (seats.apart e c i theirs mine)
  have states : ∀ {i}, (op = .swtch → i ≠ me) →
      ((d'.proc i).state = .RUNNING ↔ (d.proc i).state = .RUNNING) :=
    fun stays => turn.running ran (owners.embryo me) stays
  -- the CPU stays on its thread, or is back in the scheduler with a process that stopped
  have ctx : (op ≠ .swtch ∧ k'.ctx = k.ctx) ∨
      (op = .swtch ∧ k'.ctx c = .back ∧ (d'.proc me).state ≠ .RUNNING) := by
    rcases Control.turn_lock turned with
      ⟨rfl, -, ctx⟩ | ⟨rfl, -, -, ctx⟩ | ⟨rfl, -, -, ctx⟩ | ⟨rfl, -, back⟩
    · exact .inl ⟨by simp, ctx⟩
    · exact .inl ⟨by simp, ctx⟩
    · exact .inl ⟨by simp, ctx⟩
    · exact .inr ⟨rfl, back, (turn.off ran).2.self.1⟩
  refine seats.moved (fun e _ => congrFun shape.cur e) shape.ctx (fun e i other theirs => ?_)
    (fun waiting => ?_) (fun running' => ?_) (fun i back theirs => ?_) (fun i live => ?_)
    ((shape.passes seats owners running turn turned).lock others seats.lock) (fun e busy => ?_)
    (fun i parked => ?_) fun i => ?_
  case refine_1 =>
    rw [shape.cur]
    exact ⟨fun same => other (seats.apart e c i theirs same), states fun _ => apart e i other theirs⟩
  case refine_2 =>
    rcases ctx with ⟨-, ctx⟩ | ⟨-, back, -⟩
    · simp [ctx, inside] at waiting
    · simp [back] at waiting
  case refine_3 =>
    rw [shape.cur]
    rcases ctx with ⟨stays, -⟩ | ⟨-, back, -⟩
    · exact ⟨me, mine, (states fun leaves => absurd leaves stays).mpr (seats.self running)⟩
    · simp [back] at running'
  case refine_4 =>
    rw [shape.cur, mine] at theirs
    cases theirs
    rcases ctx with ⟨-, ctx⟩ | ⟨-, -, stopped⟩
    · simp [ctx, inside] at back
    · exact stopped
  case refine_5 =>
    have stays : op = .swtch → i ≠ me := by
      rintro leaves rfl
      rcases ctx with ⟨stays, -⟩ | ⟨-, -, stopped⟩
      · exact stays leaves
      · exact stopped live
    obtain ⟨e, running', theirs⟩ := seats.seat i ((states stays).mp live)
    by_cases same : e = c
    · subst same
      rw [mine] at theirs
      cases theirs
      rcases ctx with ⟨-, ctx⟩ | ⟨leaves, -, -⟩
      · exact .inl ⟨by rw [ctx, running'], by rw [shape.cur, mine]⟩
      · exact absurd rfl (stays leaves)
    · exact .inr ⟨e, same, running', theirs⟩
  case refine_6 =>
    by_cases same : e = c
    · subst same
      rw [shape.irq] at busy
      exact absurd idle busy
    · rw [(others e same).1] at busy
      rw [(others e same).2]
      exact seats.under e busy
  case refine_7 =>
    by_cases same : i = me
    · subst same
      rw [here]
      have fits := turn.fits (seats.sane i)
      rcases ctx with ⟨stays, -⟩ | ⟨rfl, -, -⟩
      · have live := (states fun leaves => absurd leaves stays).mpr (seats.self running)
        simp [Parked, live] at parked
      · exact fits.2
    · rcases pcs i same with kept | ⟨-, started⟩
      · rw [kept]
        rcases turn.parked ran same parked with before | made
        · exact seats.parked i before
        · rw [owners.made me i made]
          rfl
      · rw [started]
        rfl
  case refine_8 =>
    by_cases same : i = me
    · subst same
      rw [here]
      exact turn.sane (seats.sane i)
    · rcases pcs i same with kept | ⟨-, started⟩
      · rw [kept]
        exact seats.sane i
      · rw [started]
        rfl

theorem Owners.turn (seats : Seats k d) (owners : Owners k d) (running : k.thread c = some me)
    (turn : Turn d me (k.pc me) op p b) (turned : k.turn c me op p b = some k')
    (ran : b.run tenth d = some d') : Owners k' d' := by
  have shape := Control.turn_turned turned
  obtain ⟨-, pcs⟩ := shape.pc seats owners running turn
  apply shape.owners seats owners running turn
  case mine =>
    intro np owns
    cases turn.custody with
    | alloc _ unused owns' made' =>
      cases ran
      cases owns'.symm.trans owns
      show ((d.setProc np _).proc np).state = _
      rw [Ptable.setProc_proc, if_pos rfl]
    | fresh _ before owns' made' =>
      cases owns'.symm.trans owns
      exact ((Body.run_mild rfl ran).proc np).embryo.mpr (owners.embryo me np before)
    | abandon _ before owns' | ready _ made owns' => cases owns'.symm.trans owns
    | keeps plain same made =>
      have before := owners.embryo me np (same ▸ owns)
      exact turn.embryo ran plain before (seats.self running)
  case theirs =>
    intro i np other owns
    have before := owners.embryo i np owns
    -- an entry other than `j` keeps its state
    have elsewhere : ∀ {j : Slot} {x : Proc F}, np ≠ j →
        ((d.setProc j x).proc np).state = .EMBRYO := by
      intro j x apart
      rw [Ptable.setProc_proc, if_neg apart]
      exact before
    cases turn.custody with
    | alloc j unused owns' made' =>
      cases ran
      apply elsewhere
      rintro rfl
      rw [unused] at before
      cases before
    | fresh j mine owns' made' => exact ((Body.run_mild rfl ran).proc np).embryo.mpr before
    | abandon j mine owns' =>
      cases ran
      apply elsewhere
      rintro rfl
      exact other (owners.single i me np owns mine)
    | ready j made owns' =>
      cases ran
      apply elsewhere
      rintro rfl
      exact other (owners.single i me np owns (Point.owns_of_made made))
    | keeps plain same made => exact turn.embryo ran plain before (seats.self running)
  case apart =>
    intro i np other owns theirs
    cases turn.custody with
    | alloc j unused owns' made' =>
      cases owns'.symm.trans owns
      have before := owners.embryo i np theirs
      rw [unused] at before
      cases before
    | fresh j mine owns' made' =>
      cases owns'.symm.trans owns
      exact other (owners.single i me np theirs mine)
    | abandon j mine owns' | ready j made owns' => cases owns'.symm.trans owns
    | keeps plain same made => exact other (owners.single i me np theirs (same ▸ owns))
  case made =>
    intro np has
    cases turn.custody with
    | alloc j unused owns' made' => cases made'.symm.trans has
    | fresh j mine owns' made' =>
      cases made'.symm.trans has
      exact shape.fresh np rfl
    | abandon j mine owns' | ready j made owns' => cases owns'.symm.trans (Point.owns_of_made has)
    | keeps plain same made =>
      rw [made] at has
      have embryo := owners.embryo me np (Point.owns_of_made has)
      have other : np ≠ me := by
        rintro rfl
        rw [seats.self running] at embryo
        cases embryo
      rcases pcs np other with kept | ⟨-, started⟩
      · rw [kept]
        exact owners.made me np has
      · exact started

end Thread

/-! ## Steps of handlers and of the scheduler -/

section Scheduler

variable {k k' : Control C F} {d d' : Ptable F} {c : C}

theorem Seats.quiet (seats : Seats k d) (quiet : Quiet d d') : Seats k d' := by
  refine { seats with
    runs := fun e running => ?_
    left := fun e i back theirs => ?_
    seat := fun i live => seats.seat i ((quiet.running i).mp live)
    parked := fun i parked => seats.parked i (quiet.parked i parked) }
  · obtain ⟨i, theirs, live⟩ := seats.runs e running
    exact ⟨i, theirs, (quiet.running i).mpr live⟩
  · rw [Ne, quiet.running]
    exact seats.left e i back theirs

/-- The embryos are as before when no thread moves. -/
theorem Owners.congr (owners : Owners k d) (pc : k'.pc = k.pc)
    (embryo : ∀ i, (d.proc i).state = .EMBRYO → (d'.proc i).state = .EMBRYO) : Owners k' d' := by
  constructor
  · intro i np owns
    rw [pc] at owns
    exact embryo np (owners.embryo i np owns)
  · rw [pc]
    exact owners.single
  · rw [pc]
    exact owners.made

/-- A handler starts, takes the lock, or ends. What it runs on top of is inside no section. -/
theorem Seats.handler [DecidableEq C] (seats : Seats k d) {irq : Irq} {lock : Option C}
    (under : k.base c = false)
    (passes : Passes k { k with lock := lock, irq := update k.irq c irq } c) :
    Seats { k with lock := lock, irq := update k.irq c irq } d := by
  have base : ∀ e, Control.base { k with lock := lock, irq := update k.irq c irq } e =
      k.base e := fun e => Control.base_congr rfl rfl fun _ _ _ => rfl
  refine { seats with lock := ?_, under := fun e busy => ?_ }
  · apply passes.lock _ seats.lock
    intro e other
    exact ⟨update_of_ne other _ _, base e⟩
  · by_cases same : e = c
    · rw [same]
      exact under
    · apply seats.under e
      rwa [← update_of_ne same irq k.irq]

/-- Other CPUs do not notice the scheduler of `c` either. -/
structure Rounds (k k' : Control C F) (c : C) : Prop where
  irq : k'.irq = k.irq
  pc : k'.pc = k.pc
  cur : ∀ e, e ≠ c → k'.cur e = k.cur e
  ctx : ∀ e, e ≠ c → k'.ctx e = k.ctx e
  idle : k.irq c = .none
  passes : Passes k k' c

variable {e : C} {p : Slot}

theorem Rounds.base (rounds : Rounds k k' c) (other : e ≠ c) : k'.base e = k.base e := by
  apply Control.base_congr (rounds.ctx e other) (rounds.cur e other)
  intro i _ _
  rw [rounds.pc]

theorem Rounds.lock (rounds : Rounds k k' c) (seats : Seats k d) (e : C) :
    k'.lock = some e ↔ k'.holds e = true := by
  apply rounds.passes.lock _ seats.lock
  intro e other
  exact ⟨congrFun rounds.irq e, rounds.base other⟩

theorem Rounds.under (rounds : Rounds k k' c) (seats : Seats k d) (e : C)
    (busy : k'.irq e ≠ .none) : k'.base e = false := by
  rw [rounds.irq] at busy
  by_cases same : e = c
  · subst same
    exact absurd rounds.idle busy
  · rw [rounds.base same]
    exact seats.under e busy

/-- The scheduler goes round without a process. -/
theorem Seats.round (seats : Seats k d) (rounds : Rounds k k' c) (away : k.ctx c ≠ .run)
    (here : k'.ctx c = .loop ∨ k'.ctx c = .pick) (none : k'.cur c = none) : Seats k' d := by
  refine seats.moved rounds.cur rounds.ctx (fun e i _ _ => ⟨by simp [none], Iff.rfl⟩) (fun _ => none)
    (fun running => ?_) (fun i back => ?_) (fun i live => ?_) (rounds.lock seats) (rounds.under seats)
    (rounds.pc ▸ seats.parked) (rounds.pc ▸ seats.sane)
  · simp [running] at here
  · simp [back] at here
  · obtain ⟨e, running, theirs⟩ := seats.seat i live
    exact .inr ⟨e, fun same => away (same ▸ running), running, theirs⟩

/-- A runnable process is on no other CPU than the one with the lock: that would be running it, or
be back from it and hold the lock. -/
theorem Seats.unclaimed (seats : Seats k d) (held : k.lock = some c)
    (runnable : (d.proc p).state = .RUNNABLE) (other : e ≠ c) : k.cur e ≠ some p := by
  intro theirs
  rcases seats.has theirs with live | locked
  · rw [runnable] at live
    cases live
  · rw [held] at locked
    exact other (Option.some.inj locked).symm

/-- The scheduler gives its CPU, and the lock, to a runnable process. -/
theorem Seats.dispatch (seats : Seats k d) (rounds : Rounds k k' c) (here : k.ctx c = .pick)
    (cur : k'.cur c = some p) (inside : k'.ctx c = .run) (runnable : (d.proc p).state = .RUNNABLE)
    {x : Proc F} (running : x.state = .RUNNING) : Seats k' (d.setProc p x) := by
  have state : ∀ i, ((d.setProc p x).proc i).state =
      if i = p then .RUNNING else (d.proc i).state := by
    intro i
    rw [Ptable.setProc_proc]
    split
    · exact running
    · rfl
  have held : k.lock = some c := by
    rw [seats.lock, Control.holds_of_idle rounds.idle]
    simp [Control.base, here]
  refine seats.moved rounds.cur rounds.ctx (fun e i other theirs => ?_) (by simp [inside])
    (fun _ => ⟨p, cur, by rw [state, if_pos rfl]⟩) (by simp [inside]) (fun i live => ?_)
    (rounds.lock seats) (rounds.under seats) (fun i parked => ?_) (rounds.pc ▸ seats.sane)
  · have apart : i ≠ p := by
      rintro rfl
      exact seats.unclaimed held runnable other theirs
    rw [cur, state, if_neg apart]
    exact ⟨fun same => apart (Option.some.inj same).symm, Iff.rfl⟩
  · by_cases same : i = p
    · exact .inl ⟨inside, by rw [cur, same]⟩
    · rw [state, if_neg same] at live
      obtain ⟨e, running', theirs⟩ := seats.seat i live
      exact .inr ⟨e, fun same => by simp [same ▸ running'] at here, running', theirs⟩
  · rw [rounds.pc]
    rw [Parked, state] at parked
    split at parked
    · simp at parked
    · exact seats.parked i parked

end Scheduler

/-! ## Runs -/

section Runs

/-- Both invariants, which are proved together. -/
structure Placed (k : Control C F) (d : Ptable F) : Prop where
  seats : Seats k d
  owners : Owners k d

variable {k k' : Control C F} {d : Ptable F}
  {d' : Ptable F} {b : Body F} {tenth : F} {s : State C F}

theorem Placed.mild (placed : Placed k d) (seats : Seats k' d) (pc : k'.pc = k.pc)
    (mild : d.Mild d') : Placed k' d' :=
  ⟨seats.quiet mild.quiet, placed.owners.congr pc fun i => (mild.proc i).embryo.mpr⟩

/-- With the lock free, a CPU that has a process is running it. -/
theorem Seats.running_iff (seats : Seats k d) (free : k.lock = none) (i : Slot) :
    (d.proc i).state = .RUNNING ↔ ∃! c, k.cur c = some i := by
  constructor
  · intro live
    obtain ⟨c, -, mine⟩ := seats.seat i live
    exact ⟨c, mine, fun e theirs => seats.apart e c i theirs mine⟩
  · rintro ⟨c, mine, -⟩
    exact (seats.has mine).resolve_right (by simp [free])

variable [DecidableEq C]

/-- What is stored while no thread takes a turn. -/
inductive Idle (d : Ptable F) : Body F → Prop where
  | skip : Idle d .skip
  | tick : Idle d .tick
  | duty (duty : Duty) : Idle d (.enter duty.work)
  | dispatch (p : Slot) (pickable : Pickable (d.proc p)) : Idle d (.dispatch p)

/-- Where the threads are after a step: all where they were, or one of them took a turn. -/
inductive Walks (k k' : Control C F) (d : Ptable F) (b : Body F) : Prop where
  | still (pc : k'.pc = k.pc) (body : Idle d b)
  | turn (me : Slot) (running : (d.proc me).state = .RUNNING) {op : LockOp} {p : Point F}
      (turn : Turn d me (k.pc me) op p b) (self : k'.pc me = p)
      (others : ∀ i, i ≠ me → k'.pc i = k.pc i ∨ b = .fresh i ∧ k'.pc i = .forkret)

theorem Moves.walks (moves : Moves k d k' b) (placed : Placed k d) : Walks k k' d b := by
  cases moves with
  | tick => exact .still rfl .tick
  | irqDone c duty here held => exact .still rfl (.duty duty)
  | dispatch c p last idle here pickable => exact .still rfl (.dispatch p pickable)
  | thread c me running turn turned =>
    have shape := Control.turn_turned turned
    obtain ⟨here, pcs⟩ := shape.pc placed.seats placed.owners running turn
    exact .turn me (placed.seats.self running) turn here pcs
  | _ => exact .still rfl .skip

variable [Zero F] [One F] [Add F]

theorem Moves.placed (moves : Moves k d k' b) (ran : b.run tenth d = some d') (placed : Placed k d) :
    Placed k' d' := by
  have seats := placed.seats
  cases moves with
  | tick => exact placed.mild seats rfl (Body.run_mild rfl ran)
  | interrupt c duty idle free =>
    have under : k.base c = false := by rwa [Control.holds_of_idle idle] at free
    refine placed.mild (seats.handler under (.keep rfl ?_)) rfl (Body.run_mild rfl ran)
    rw [free]
    simp [Control.holds]
  | irqLock c duty here free =>
    have under := seats.under c (by simp [here])
    refine placed.mild (seats.handler under (.take free rfl ?_)) rfl (Body.run_mild rfl ran)
    simp [Control.holds]
  | irqDone c duty here held =>
    have under := seats.under c (by simp [here])
    refine placed.mild (seats.handler under (.drop held rfl ?_)) rfl (Body.run_mild rfl ran)
    rw [Control.holds_of_idle (by simp)]
    exact under
  | schedLock c idle here free =>
    have none := seats.idle c (.inl here)
    refine placed.mild (seats.round (c := c) ?_ (by simp [here]) (by simp) none) rfl
      (Body.run_mild rfl ran)
    refine ⟨rfl, rfl, fun _ _ => rfl, fun e other => update_of_ne other _ _, idle, ?_⟩
    exact .take free rfl (by simp [Control.holds_of_idle, idle, Control.base])
  | schedIdle c last idle here held =>
    have none := seats.idle c (.inr here)
    refine placed.mild (seats.round (c := c) ?_ (by simp [here]) (by simp) none) rfl
      (Body.run_mild rfl ran)
    refine ⟨rfl, rfl, fun _ _ => rfl, fun e other => update_of_ne other _ _, idle, ?_⟩
    exact .drop held rfl (by simp [Control.holds_of_idle, idle, Control.base])
  | schedBack c idle here held =>
    refine placed.mild (seats.round (c := c) ?_ (by simp [here]) (by simp) (by simp)) rfl
      (Body.run_mild rfl ran)
    refine ⟨rfl, rfl, fun e other => update_of_ne other _ _,
      fun e other => update_of_ne other _ _, idle, ?_⟩
    exact .drop held rfl (by simp [Control.holds_of_idle, idle, Control.base])
  | dispatch c p last idle here pickable =>
    cases ran
    constructor
    · apply seats.dispatch (c := c) _ here (by simp) (by simp) pickable.1 rfl
      refine ⟨rfl, rfl, fun e other => update_of_ne other _ _,
        fun e other => update_of_ne other _ _, idle, .keep rfl ?_⟩
      have parked := seats.parked p (.inl pickable.1)
      simp [Control.holds_of_idle, idle, Control.base, here, parked]
    · refine placed.owners.congr ?_ ?_
      · rfl
      intro i embryo
      have other : i ≠ p := by
        rintro rfl
        rw [pickable.1] at embryo
        cases embryo
      rw [Ptable.setProc_proc, if_neg other]
      exact embryo
  | thread c me running turn turned =>
    exact ⟨seats.turn placed.owners running turn turned ran,
      Owners.turn seats placed.owners running turn turned ran⟩

omit [DecidableEq C] [Add F] in
theorem Start.placed (start : Start s) : Placed s.control s.data := by
  have state : ∀ i, (s.data.proc i).state = .RUNNABLE ∧ i = initproc ∨
      (s.data.proc i).state = .UNUSED := by
    intro i
    rw [start.data]
    by_cases first : i = initproc
    · exact .inl ⟨by simp [booted, first], first⟩
    · exact .inr (by simp [booted, first])
  have stopped : ∀ i, (s.data.proc i).state ≠ .RUNNING := by
    intro i
    rcases state i with ⟨runnable, -⟩ | unused <;> simp [*]
  have points : ∀ i, s.control.pc i = .forkret ∨ s.control.pc i = .dead := by
    intro i
    by_cases first : i = initproc
    · exact .inl (first ▸ start.init)
    · exact .inr (start.others i first)
  constructor
  · constructor
    case idle => exact fun c _ => start.cur c
    case runs =>
      intro c running
      rcases start.ctx c with loop | pick <;> simp_all
    case left =>
      intro c i back
      rcases start.ctx c with loop | pick <;> simp_all
    case seat => exact fun i running => absurd running (stopped i)
    case apart =>
      intro c c' i first
      simp [start.cur c] at first
    case lock => exact start.lock
    case under =>
      intro c busy
      simp [Control.base, start.irq c busy]
    case parked =>
      intro i _
      rcases points i with here | here <;> rw [here] <;> rfl
    case sane =>
      intro i
      rcases points i with here | here <;> rw [here] <;> rfl
  · have free : ∀ i, (s.control.pc i).owns = none ∧ (s.control.pc i).made = none := by
      intro i
      rcases points i with here | here <;> rw [here] <;> exact ⟨rfl, rfl⟩
    constructor
    · intro i np owns
      simp [free] at owns
    · intro i j np owns
      simp [free] at owns
    · intro i np made
      simp [free] at made

variable [Mul F] [IntCast F] [LT F] [DecidableLT F]

theorem reach_placed {ok : State C F → Event C F → Prop} (reached : (system C tenth).Reach ok s) :
    Placed s.control s.data := by
  induction reached with
  | start initial => exact Start.placed initial
  | step _ _ stepped ih =>
    obtain ⟨b, moved, ran⟩ := next_eq_some stepped
    exact (moves_of_move moved).placed ran ih

/-- **One CPU per running process.** In every state that any number of CPUs can reach, no process
is the `c->proc` of two, and while `ptable.lock` is free a process is RUNNING exactly when one CPU
has it. -/
theorem one_cpu_per_running_process {tenth : F} {s : State C F}
    (reached : (system C tenth).Reachable s) :
    (s.control.lock = none →
      ∀ i, (s.data.proc i).state = .RUNNING ↔ ∃! c, s.control.cur c = some i) ∧
      ∀ c c' i, s.control.cur c = some i → s.control.cur c' = some i → c = c' := by
  have seats := (reach_placed reached).seats
  constructor
  · intro free i
    exact seats.running_iff free i
  · exact seats.apart

end Runs

/-! ## A run -/

/-- Four CPUs, all about to take the lock for their first round. -/
def atBoot : State (Fin NCPU) ℚ where
  control :=
    { lock := none
      cur := fun _ => none
      ctx := fun _ => .loop
      last := fun _ => Fin.last 63
      irq := fun _ => .none
      pc := fun i => if i = initproc then .forkret else .dead }
  data := booted

theorem atBoot_start : Start atBoot := by
  constructor
  case lock =>
    intro c
    simp [atBoot, Control.holds, Control.base]
  case others =>
    intro i other
    simp [atBoot, other]
  case data => rfl
  case cur => exact fun _ => rfl
  case ctx => exact fun _ => .inl rfl
  case irq => exact fun _ _ => rfl
  case init => rfl

/-- CPU 1 runs `init`, which forks; CPU 2 picks the child. -/
def forkEvents : List (Event (Fin NCPU) ℚ) :=
  [.advance 1, .advance 1, .advance 1, .call 1 .fork] ++ List.replicate 9 (.advance 1) ++
    List.replicate 3 (.advance 2)

def twoRunning : State (Fin NCPU) ℚ :=
  ((system (Fin NCPU) (1 / 10)).run atBoot forkEvents).getD atBoot

theorem one_cpu_per_running_process_twoRunning :
    (twoRunning.data.proc 1).state = .RUNNING ∧ ∃! c, twoRunning.control.cur c = some 1 := by
  have reached : (system (Fin NCPU) (1 / 10 : ℚ)).Reachable twoRunning := by
    apply System.Reach.run_getD (.start atBoot_start) (System.admits_true _ _ _)
    decide +kernel
  have free : twoRunning.control.lock = none := by decide +kernel
  have running : (twoRunning.data.proc 1).state = .RUNNING := by decide +kernel
  exact ⟨running, ((one_cpu_per_running_process reached).1 free 1).mp running⟩

end Xv6.Procs
