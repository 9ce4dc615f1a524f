/-
# Xv6.Procs.Handover -- `sleep` gives up a lock without losing a wakeup

`sleep` takes `ptable.lock` before it lets `lk` go and is SLEEPING before `scheduler` lets
`ptable.lock` go. So whoever is on the way to sleep holds one of the two locks at every step, and a
waker, who holds both while it looks for sleepers, meets nobody in between. `Inv.awake` says it.
-/
import Xv6.Procs.Roles

namespace Xv6.Procs
open Lib Sched Option
set_option autoImplicit false

variable {C F : Type}

namespace Handover

variable [DecidableEq C]

/-! ## The invariant -/

/-- Agent `a` has CPU `c`. -/
def Seat (k : Control C F) (c : C) : Agent C → Prop
  | .thread i => k.ctx c = .run ∧ k.cur c = some i
  | .handler e => e = c

def SleepsOn (chan : Chan) (p : Proc F) : Prop := p.state = .SLEEPING ∧ p.chan = some chan

structure Inv (chan : Chan) (s : State C F) : Prop where
  fits : ∀ i, (s.role (.thread i)).Fits chan (s.base.control.pc i)
  alive : ∀ i, s.role (.thread i) ≠ .away → Alive (s.base.data.proc i)
  held : ∀ a, (s.role a).holds = true → ∃ c, s.lk = some c ∧ Seat s.base.control c a
  leaving : ∀ i ch, s.role (.thread i) = .asleep ch → s.base.control.pc i = .sleepBody ch →
    ∃ c, Seat s.base.control c (.thread i)
  single : ∀ a b, (s.role a).holds = true → (s.role b).holds = true → a = b
  awake : s.cond = true → (∀ a, s.role a ≠ .inside true) →
    ∀ i, ¬ (s.role (.thread i)).Heading chan (s.base.control.pc i) ∧
      ¬ SleepsOn chan (s.base.data.proc i)

variable {i : Slot} {c : C} {ch : Chan} {a : Agent C}

section Base

variable {chan : Chan} {s : State C F} {e : Procs.Event C F} {k' : Control C F} {d' : Ptable F}
  {b : Body F}

/-- What the machine does to a thread is allowed in its role. -/
theorem allows_acts (allowed : s.allows chan e = true) {p q : Point F} {op : LockOp}
    (running : s.base.control.thread c = some i) (acts : Acts s.base.data c i p e op q b) :
    (s.role (.thread i)).allows chan e = true := by
  have idle := (Control.thread_eq_some running).1
  cases acts with
  | call call here ok | preempt preemptible | abandon np here =>
    simp only [State.allows, State.allowsThread, running] at allowed
    exact (of_decide_eq_true allowed).2
  | step stepped =>
    simp only [State.allows, State.allowsThread, running] at allowed
    split at allowed
    · exact allowed
    · simp [idle] at allowed

variable [Add F] [Mul F] [IntCast F] [LT F] [DecidableLT F]

section Step

variable (inv : Inv chan s) (placed : Placed s.base.control s.base.data)
  (allowed : s.allows chan e = true) (moved : move s.base.control s.base.data e = some (k', b))
include inv placed allowed moved

theorem base_fits (i : Slot) : (s.follow chan k' (.thread i)).Fits chan (k'.pc i) := by
  cases paces_of_move placed moved i with
  | kept same =>
    rw [State.follow, same, Role.follow_self (inv.fits i)]
    exact inv.fits i
  | started fresh embryo first =>
    have away : s.role (.thread i) = .away := by
      by_contra near
      have alive := inv.alive i near
      rw [Alive, embryo] at alive
      cases alive
    rw [State.follow, away, first]
    rintro ⟨⟩
  | acts running acts => exact (inv.fits i).acts acts (allows_acts allowed running acts)

/-- Between `acquire(&ptable.lock)` and `release(lk)` a thread does nothing else. -/
theorem handing_waits (role : s.role (.thread i) = .handing ch) :
    k'.pc i = s.base.control.pc i := by
  cases paces_of_move placed moved i with
  | kept same => exact same
  | started fresh embryo first =>
    have alive := inv.alive i (by simp [role])
    rw [Alive, embryo] at alive
    cases alive
  | acts running acts =>
    have able := allows_acts allowed running acts
    rw [role] at able
    generalize k'.pc i = q at acts
    cases acts <;> cases able

/-- Whoever holds `lk` keeps its CPU. -/
theorem holder_stays (holds : (s.role (.thread i)).holds = true)
    (seat : Seat s.base.control c (.thread i)) : Seat k' c (.thread i) := by
  rcases (moves_of_move moved).stays placed seat.1 seat.2 with stays | turn
  · exact stays
  · have fits := inv.fits i
    cases role : s.role (.thread i) with
    | inside owes =>
      rw [role] at fits
      rcases fits with here | ⟨sec, here⟩ | ⟨sec, here⟩ <;> rw [here] at turn <;> cases turn
    | commit ch =>
      rw [role] at fits
      rw [show s.base.control.pc i = .sleepLock ch from fits] at turn
      cases turn
    | handing ch =>
      rw [role] at fits
      rw [handing_waits inv placed allowed moved role,
        show s.base.control.pc i = .sleepBody ch from fits] at turn
      cases turn
    | _ =>
      rw [role] at holds
      cases holds

theorem base_held (a : Agent C) (holds : (s.follow chan k' a).holds = true) :
    (s.role a).holds = true ∧ ∃ c, s.lk = some c ∧ Seat k' c a := by
  cases a with
  | thread i =>
    rw [State.follow, Role.follow_holds] at holds
    obtain ⟨c, lk, seat⟩ := inv.held _ holds
    exact ⟨holds, c, lk, holder_stays inv placed allowed moved holds seat⟩
  | handler e =>
    rw [State.follow, Role.followIrq_holds] at holds
    obtain ⟨c, lk, seat⟩ := inv.held _ holds
    exact ⟨holds, c, lk, seat⟩

omit inv allowed in
theorem back_rests (back : s.base.control.pc i = .sleepBack) : k'.pc i ≠ .sleepBody ch := by
  intro here
  cases paces_of_move placed moved i with
  | kept same =>
    rw [same, back] at here
    cases here
  | started fresh embryo first =>
    rw [first] at here
    cases here
  | acts running acts =>
    have turn := acts.turn
    rw [back, here] at turn
    cases turn

omit allowed in
theorem base_leaving (role : s.follow chan k' (.thread i) = .asleep ch)
    (here : k'.pc i = .sleepBody ch) :
    s.role (.thread i) = .asleep ch ∧ s.base.control.pc i = .sleepBody ch ∧
      ∃ c, Seat s.base.control c (.thread i) ∧ Seat k' c (.thread i) := by
  have before : s.role (.thread i) = .asleep ch := by
    rcases Role.follow_cases chan (s.base.control.pc i) (k'.pc i) (s.role (.thread i)) with
      same | ⟨x, -, follows⟩ | ⟨x, -, follows⟩ | ⟨x, -, -, -, follows⟩
    · exact same.symm.trans role
    all_goals cases follows.symm.trans role
  have fits := inv.fits i
  rw [before] at fits
  rcases fits with body | back
  · obtain ⟨c, seat⟩ := inv.leaving i ch before body
    refine ⟨before, body, c, seat, ?_⟩
    rcases (moves_of_move moved).stays placed seat.1 seat.2 with stays | turn
    · exact stays
    · rw [body, here] at turn
      cases turn
  · exact absurd here (back_rests placed moved back)

omit inv allowed in
/-- A wakeup that is due is done under both locks, when nobody is between them. -/
theorem base_wakes (due : s.role a = .inside true) (done : s.follow chan k' a ≠ .inside true) :
    b = .enter (.wakeup chan) ∧ ∀ i ch c, s.role (.thread i) = .asleep ch →
      s.base.control.pc i = .sleepBody ch → ¬ Seat s.base.control c (.thread i) := by
  have seats := placed.seats
  cases a with
  | thread j =>
    rcases Role.follow_cases chan (s.base.control.pc j) (k'.pc j) (s.role (.thread j)) with
      same | ⟨x, commit, -⟩ | ⟨x, asleep, -⟩ | ⟨x, -, before, after, -⟩
    · exact absurd (same.trans due) done
    · cases due.symm.trans commit
    · cases due.symm.trans asleep
    · cases paces_of_move placed moved j with
      | kept same => cases before.symm.trans (same.symm.trans after)
      | started fresh embryo first => cases first.symm.trans after
      | acts running acts =>
        have turn := acts.turn
        rw [before, after] at turn
        cases turn
        refine ⟨rfl, fun i ch c asleep body seat => ?_⟩
        obtain ⟨-, run, cur⟩ := Control.thread_eq_some running
        have mine := (seats.locked run cur (by rw [before]; rfl)).2
        have theirs := (seats.locked seat.1 seat.2 (by rw [body]; rfl)).2
        rw [mine] at theirs
        cases theirs
        rw [seat.2] at cur
        cases cur
        cases due.symm.trans asleep
  | handler e =>
    rcases Role.followIrq_cases chan (s.base.control.irq e) (k'.irq e) (s.role (.handler e)) with
      same | ⟨x, -, before, after, -⟩
    · exact absurd (same.trans due) done
    · obtain ⟨stored, mine⟩ := (moves_of_move moved).irq_done before after
      refine ⟨stored, fun i ch c asleep body seat => ?_⟩
      obtain ⟨idle, theirs⟩ := seats.locked seat.1 seat.2 (by rw [body]; rfl)
      rw [mine] at theirs
      cases theirs
      cases before.symm.trans idle

variable [Zero F] [One F] {tenth : F}

theorem base_awake (own : ∀ i, chan ≠ .proc i) (kin : Kin s.base.control s.base.data)
    (ran : b.run tenth s.base.data = some d') (cond : s.cond = true)
    (quiet : ∀ a, s.follow chan k' a ≠ .inside true) (i : Slot) :
    ¬ (s.follow chan k' (.thread i)).Heading chan (k'.pc i) ∧ ¬ SleepsOn chan (d'.proc i) := by
  have heading : (s.follow chan k' (.thread i)).Heading chan (k'.pc i) →
      (s.role (.thread i)).Heading chan (s.base.control.pc i) :=
    Role.heading_of_follow (inv.fits i) (back_rests placed moved)
  by_cases due : ∃ a, s.role a = .inside true
  · -- the wakeup has just been done
    obtain ⟨a, due⟩ := due
    obtain ⟨rfl, nobody⟩ := base_wakes placed moved due (quiet a)
    have apart : (s.role (.thread i)).holds = true → s.role (.thread i) = .inside true := by
      intro holds
      rw [inv.single _ a holds (by rw [due]; rfl)]
      exact due
    constructor
    · intro after
      rcases heading after with role | role | ⟨role, body⟩
      · cases role.symm.trans (apart (by rw [role]; rfl))
      · cases role.symm.trans (apart (by rw [role]; rfl))
      · obtain ⟨c, seat⟩ := inv.leaving i chan role body
        exact nobody i chan c role body seat
    · cases ran
      exact wakeupAt_clears s.base.data.proc (some chan) i
  · have awake := inv.awake cond (fun a role => due ⟨a, role⟩) i
    refine ⟨fun after => awake.1 (heading after), ?_⟩
    rintro ⟨asleep, on⟩
    have walks := (moves_of_move moved).walks placed
    rcases (walks.effect placed kin).asleep ran asleep with ⟨before, same⟩ | ⟨ch, rfl⟩
    · exact awake.2 ⟨before, same.symm.trans on⟩
    · have here : ch = chan := by
        cases ran
        rw [Ptable.setProc_proc, if_pos rfl] at on
        exact some.inj on
      subst here
      cases walks with
      | still pc body => cases body
      | turn me running turn self others =>
        obtain rfl := turn.actor_sleep.1
        rcases turn_sleep turn with body | other
        · exact awake.1 ((inv.fits _).heading body)
        · exact own _ other

theorem Inv.base (own : ∀ i, chan ≠ .proc i) (kin : Kin s.base.control s.base.data)
    (ran : b.run tenth s.base.data = some d') :
    Inv chan { s with base := ⟨k', d'⟩, role := s.follow chan k' } := by
  have walks := (moves_of_move moved).walks placed
  have effect := walks.effect placed kin
  constructor
  case fits => exact base_fits inv placed allowed moved
  case alive =>
    intro i near'
    have near := Role.away_of_follow near'
    apply effect.stays ran (inv.alive i near)
    rintro rfl
    cases walks with
    | still pc body => cases body
    | turn me running turn self others =>
      obtain rfl := turn.actor_exit
      have exits := (inv.fits _).exits near
      generalize s.base.control.pc i = p at turn exits
      cases turn
      cases exits
  case held => exact fun a holds => (base_held inv placed allowed moved a holds).2
  case leaving =>
    intro i ch role here
    obtain ⟨-, -, c, -, seat⟩ := base_leaving inv placed moved role here
    exact ⟨c, seat⟩
  case single =>
    intro a a' holds holds'
    exact inv.single a a' (base_held inv placed allowed moved a holds).1
      (base_held inv placed allowed moved a' holds').1
  case awake => exact base_awake inv placed allowed moved own kin ran

end Step

end Base

/-! ## Steps with `lk` -/

section Become

variable {chan : Chan} {s : State C F} {a : Agent C} {r : Role}

omit [DecidableEq C] in
theorem Inv.free (inv : Inv chan s) (free : s.lk = none) (a : Agent C) :
    (s.role a).holds = false := by
  by_contra holds
  obtain ⟨c, lk, -⟩ := inv.held a (by simpa using holds)
  cases free.symm.trans lk

variable {k' : Control C F} {lk : Option C} {cond : Bool}

/-- An agent changes its role, with `lk` and the condition, and a thread its point. -/
theorem Inv.become (inv : Inv chan s) (ctx : k'.ctx = s.base.control.ctx)
    (cur : k'.cur = s.base.control.cur) (pc : ∀ i, a ≠ .thread i → k'.pc i = s.base.control.pc i)
    (fits : ∀ i, a = .thread i → r.Fits chan (k'.pc i))
    (alive : ∀ i, a = .thread i → Alive (s.base.data.proc i))
    (held : r.holds = true → ∃ c, lk = some c ∧ Seat s.base.control c a)
    (leaving : ∀ ch, r = .asleep ch → ∃ c, Seat s.base.control c a)
    (others : ∀ a', a' ≠ a → (s.role a').holds = true → r.holds = false ∧ lk = s.lk)
    (awake : cond = true → r ≠ .inside true → s.cond = true ∧ s.role a ≠ .inside true ∧
      ∀ i, a = .thread i → r.Heading chan (k'.pc i) →
        (s.role a).Heading chan (s.base.control.pc i)) :
    Inv chan { s.become a r with base := ⟨k', s.base.data⟩, lk := lk, cond := cond } := by
  have role : ∀ a', (s.become a r).role a' = if a' = a then r else s.role a' :=
    fun a' => Function.update_apply ..
  have seat : ∀ {c a'}, Seat s.base.control c a' → Seat k' c a' := by
    intro c a' seat
    cases a' with
    | thread i => exact ⟨(congrFun ctx c).trans seat.1, (congrFun cur c).trans seat.2⟩
    | handler e => exact seat
  constructor
  case fits =>
    intro i
    rw [role]
    split
    next same => exact fits i same.symm
    next other =>
      rw [pc i (Ne.symm other)]
      exact inv.fits i
  case alive =>
    intro i near
    rw [role] at near
    split at near
    next same => exact alive i same.symm
    next => exact inv.alive i near
  case held =>
    intro a' holds
    rw [role] at holds
    split at holds
    next same =>
      obtain ⟨c, lk, mine⟩ := held holds
      exact ⟨c, lk, seat (same ▸ mine)⟩
    next other =>
      obtain ⟨c, lk, theirs⟩ := inv.held a' holds
      exact ⟨c, (others a' other holds).2.trans lk, seat theirs⟩
  case leaving =>
    intro i ch asleep body
    rw [role] at asleep
    split at asleep
    next same =>
      obtain ⟨c, mine⟩ := leaving ch asleep
      exact ⟨c, seat (same ▸ mine)⟩
    next other =>
      rw [pc i (Ne.symm other)] at body
      obtain ⟨c, theirs⟩ := inv.leaving i ch asleep body
      exact ⟨c, seat theirs⟩
  case single =>
    intro a₁ a₂ holds₁ holds₂
    rw [role] at holds₁ holds₂
    split at holds₁ <;> split at holds₂
    next same₁ same₂ => rw [same₁, same₂]
    next same₁ other₂ => simp [(others a₂ other₂ holds₂).1] at holds₁
    next other₁ same₂ => simp [(others a₁ other₁ holds₁).1] at holds₂
    next other₁ other₂ => exact inv.single a₁ a₂ holds₁ holds₂
  case awake =>
    intro set quiet i
    have mine := quiet a
    rw [role, if_pos rfl] at mine
    obtain ⟨set', mine', heading⟩ := awake set mine
    have before : ∀ a', s.role a' ≠ .inside true := by
      intro a'
      by_cases same : a' = a
      · rwa [same]
      · have theirs := quiet a'
        rwa [role, if_neg same] at theirs
    have awake := inv.awake set' before i
    refine ⟨?_, awake.2⟩
    rw [role]
    split
    next same => exact fun after => awake.1 (same ▸ heading i same.symm after)
    next other =>
      rw [pc i (Ne.symm other)]
      exact awake.1

omit [DecidableEq C] in
theorem seated_alive (placed : Placed s.base.control s.base.data) (seat : Seat s.base.control c a)
    (i : Slot) (here : a = .thread i) : Alive (s.base.data.proc i) := by
  subst here
  obtain ⟨j, cur, running⟩ := placed.seats.runs c seat.1
  rw [seat.2] at cur
  cases cur
  rw [Alive, running]
  rfl

omit [DecidableEq C] in
theorem rests_user (rests : s.rests (.thread i) = true) : s.base.control.pc i = .user := by
  simp only [State.rests] at rests
  split at rests
  next here => exact here
  next => cases rests

/-- A holder of `lk` changes its role, and keeps `lk` or gives it up. -/
theorem Inv.change (inv : Inv chan s) (placed : Placed s.base.control s.base.data)
    (holds : (s.role a).holds = true) (ctx : k'.ctx = s.base.control.ctx)
    (cur : k'.cur = s.base.control.cur) (pc : ∀ i, a ≠ .thread i → k'.pc i = s.base.control.pc i)
    (fits : ∀ i, a = .thread i → r.Fits chan (k'.pc i)) (keeps : r.holds = true → lk = s.lk)
    (awake : cond = true → r ≠ .inside true → s.cond = true ∧ s.role a ≠ .inside true ∧
      ∀ i, a = .thread i → r.Heading chan (k'.pc i) →
        (s.role a).Heading chan (s.base.control.pc i)) :
    Inv chan { s.become a r with base := ⟨k', s.base.data⟩, lk := lk, cond := cond } := by
  obtain ⟨c, locked, seat⟩ := inv.held a holds
  apply inv.become ctx cur pc fits
  case alive => exact seated_alive placed seat
  case held => exact fun holds' => ⟨c, (keeps holds').trans locked, seat⟩
  case leaving => exact fun _ _ => ⟨c, seat⟩
  case others => exact fun a' other holds' => absurd (inv.single a' a holds' holds) other
  case awake => exact awake

end Become

/-! ## Everything a step can do -/

section Runs

variable [Zero F] [One F] [Add F] [Mul F] [IntCast F] [LT F] [DecidableLT F]

inductive Does (chan : Chan) (tenth : F) (s : State C F) : State C F → Prop where
  | base (e : Procs.Event C F) (allowed : s.allows chan e = true) {base : Procs.State C F}
      (stepped : Procs.next tenth s.base e = some base) :
      Does chan tenth s { s with base := base, role := s.follow chan base.control }
  | starts (a : Agent C) (c : C) (seat : Seat s.base.control c a) (rests : s.rests a = true)
      (role : s.role a = .away) : Does chan tenth s (s.become a .enter)
  | acquire (a : Agent C) (c : C) (acts : s.actor c = some a) (rests : s.rests a = true)
      (role : s.role a = .enter ∨ s.role a = .relock) (free : s.lk = none) :
      Does chan tenth s { s.become a (.inside false) with lk := some c }
  | set (a : Agent C) (owes : Bool) (rests : s.rests a = true) (role : s.role a = .inside owes) :
      Does chan tenth s { s.become a (.inside true) with cond := true }
  | clear (a : Agent C) (owes : Bool) (rests : s.rests a = true) (role : s.role a = .inside owes) :
      Does chan tenth s { s.become a (.inside false) with cond := false }
  | release (a : Agent C) (rests : s.rests a = true) (role : s.role a = .inside false) :
      Does chan tenth s { s.become a .away with lk := none }
  | sleep (c : C) (i : Slot) (ch : Chan) (role : s.role (.thread i) = .inside false)
      (tested : ch = chan → s.cond = false)
      (stepped : Procs.next tenth s.base (.call c (.sleep ch)) =
        some ⟨s.base.control.goto i (.sleepLock ch), s.base.data⟩) :
      Does chan tenth s { s.become (.thread i) (.commit ch) with
        base := ⟨s.base.control.goto i (.sleepLock ch), s.base.data⟩ }
  | handOver (c : C) (i : Slot) (ch : Chan) (running : s.base.control.thread c = some i)
      (role : s.role (.thread i) = .handing ch) :
      Does chan tenth s { s.become (.thread i) (.asleep ch) with lk := none }

variable {s s' : State C F} {tenth : F}

omit [DecidableEq C] [Zero F] [One F] [Add F] [Mul F] [IntCast F] [LT F] [DecidableLT F] in
theorem actor_eq_some (acts : s.actor c = some a) :
    Seat s.base.control c a ∧ ∀ i, a = .thread i → s.base.control.thread c = some i := by
  unfold State.actor at acts
  split at acts
  · obtain ⟨i, running, rfl⟩ := map_eq_some_iff.mp acts
    refine ⟨(Control.thread_eq_some running).2, ?_⟩
    rintro _ ⟨⟩
    exact running
  · obtain ⟨-, ⟨⟩⟩ := ite_none_right_eq_some.mp acts
    exact ⟨rfl, by rintro _ ⟨⟩⟩

/-- What the call of `sleep` does to the machine. -/
theorem sleep_called {s s' : Procs.State C F} (running : s.control.thread c = some i)
    (called : Procs.next tenth s (.call c (.sleep ch)) = some s') :
    s' = ⟨s.control.goto i (.sleepLock ch), s.data⟩ := by
  obtain ⟨b, moved, ran⟩ := next_eq_some called
  simp only [move, running, bind_some] at moved
  split at moved
  · cases s'
    cases moved
    cases ran
    rfl
  · cases moved

theorem does_of_next {chan : Chan} {e : Event C F} (stepped : next chan tenth s e = some s') :
    Does chan tenth s s' := by
  cases e with
  | base e =>
    simp only [next] at stepped
    split at stepped
    next allowed =>
      obtain ⟨base, moved, rfl⟩ := map_eq_some_iff.mp stepped
      exact .base e allowed moved
    next => cases stepped
  | call c =>
    simp only [next] at stepped
    split at stepped
    next i acts =>
      obtain ⟨here, ⟨⟩⟩ := ite_none_right_eq_some.mp stepped
      exact .starts _ c (actor_eq_some acts).1 here.1 here.2
    next => cases stepped
  | trap c =>
    obtain ⟨here, ⟨⟩⟩ := ite_none_right_eq_some.mp stepped
    exact .starts _ c rfl rfl here.1
  | op c op =>
    simp only [next, bind_eq_some_iff] at stepped
    obtain ⟨a, acts, stepped⟩ := stepped
    split at stepped
    next rests =>
      obtain ⟨⟨lk, cond, r⟩, ran, rfl⟩ := map_eq_some_iff.mp stepped
      generalize role : s.role a = old at ran
      unfold Op.run at ran
      split at ran
      · obtain ⟨free, ⟨⟩⟩ := ite_none_right_eq_some.mp ran
        exact .acquire a c acts rests (.inl role) free
      · obtain ⟨free, ⟨⟩⟩ := ite_none_right_eq_some.mp ran
        exact .acquire a c acts rests (.inr role) free
      next owes =>
        cases ran
        exact .set a owes rests role
      next owes =>
        cases ran
        exact .clear a owes rests role
      · obtain ⟨-, ⟨⟩⟩ := ite_none_right_eq_some.mp ran
        exact .release a rests role
      · cases ran
    next => cases stepped
  | sleep c ch =>
    simp only [next] at stepped
    split at stepped
    next i acts =>
      split at stepped
      next here =>
        obtain ⟨base, called, rfl⟩ := map_eq_some_iff.mp stepped
        have shape := sleep_called ((actor_eq_some acts).2 i rfl) called
        subst shape
        exact .sleep c i ch here.1 here.2 called
      next => cases stepped
    next => cases stepped
  | handOver c =>
    simp only [next] at stepped
    split at stepped
    next i acts =>
      split at stepped
      next ch role =>
        obtain ⟨held, ⟨⟩⟩ := ite_none_right_eq_some.mp stepped
        exact .handOver c i ch ((actor_eq_some acts).2 i rfl) role
      next => cases stepped
    next => cases stepped

theorem Does.inv {chan : Chan} (own : ∀ i, chan ≠ .proc i) (does : Does chan tenth s s')
    (placed : Placed s.base.control s.base.data) (kin : Kin s.base.control s.base.data)
    (inv : Inv chan s) : Inv chan s' := by
  cases does with
  | base e allowed stepped =>
    obtain ⟨b, moved, ran⟩ := next_eq_some stepped
    exact inv.base placed allowed moved own kin ran
  | starts a c seat rests role =>
    apply inv.become rfl rfl (fun _ _ => rfl)
    case fits =>
      rintro i rfl
      rw [rests_user rests]
      rfl
    case alive => exact seated_alive placed seat
    case held => rintro ⟨⟩
    case leaving => rintro _ ⟨⟩
    case others => exact fun _ _ _ => ⟨rfl, rfl⟩
    case awake =>
      intro set _
      exact ⟨set, by simp [role], fun i _ heading => by simp [Role.Heading] at heading⟩
  | acquire a c acts rests role free =>
    have seat := (actor_eq_some acts).1
    apply inv.become rfl rfl (fun _ _ => rfl)
    case fits =>
      rintro i rfl
      exact .inl (rests_user rests)
    case alive => exact seated_alive placed seat
    case held => exact fun _ => ⟨c, rfl, seat⟩
    case leaving => rintro _ ⟨⟩
    case others =>
      intro a' _ holds
      simp [inv.free free a'] at holds
    case awake =>
      intro set _
      refine ⟨set, ?_, fun i _ heading => by simp [Role.Heading] at heading⟩
      rcases role with role | role <;> simp [role]
  | set a owes rests role | clear a owes rests role =>
    apply inv.change placed (by rw [role]; rfl) rfl rfl (fun _ _ => rfl)
    case fits =>
      rintro i rfl
      exact .inl (rests_user rests)
    case keeps => exact fun _ => rfl
    case awake => simp
  | release a rests role =>
    apply inv.change placed (by rw [role]; rfl) rfl rfl (fun _ _ => rfl)
    case fits =>
      rintro i rfl
      rw [rests_user rests]
      simp [Role.Fits, target]
    case keeps => rintro ⟨⟩
    case awake =>
      intro set _
      exact ⟨set, by simp [role], fun i _ heading => by simp [Role.Heading] at heading⟩
  | sleep c i ch role tested stepped =>
    have ctx : (s.base.control.goto i (.sleepLock ch)).ctx = s.base.control.ctx := rfl
    apply inv.change placed (by rw [role]; rfl) ctx rfl
    case pc =>
      intro j other
      exact Function.update_of_ne (fun same => other (by rw [same])) _ _
    case fits =>
      rintro j ⟨⟩
      exact Function.update_self ..
    case keeps => exact fun _ => rfl
    case awake =>
      intro set _
      refine ⟨set, by simp [role], ?_⟩
      rintro j - (here | here | ⟨here, -⟩)
      · cases here
        cases set.symm.trans (tested rfl)
      · cases here
      · cases here
  | handOver c i ch running role =>
    have body := inv.fits i
    rw [role] at body
    apply inv.change placed (by rw [role]; rfl) rfl rfl (fun _ _ => rfl)
    case fits =>
      rintro j ⟨⟩
      exact .inl body
    case keeps => rintro ⟨⟩
    case awake =>
      intro set _
      refine ⟨set, by simp [role], ?_⟩
      rintro j - (here | here | ⟨here, -⟩)
      · cases here
      · cases here
      · cases here
        exact .inr (.inl role)

omit [DecidableEq C] [Add F] [Mul F] [IntCast F] [LT F] [DecidableLT F] in
theorem Start.inv {chan : Chan} (initial : Start s) : Inv chan s := by
  have away := initial.role
  have idle : ∀ a, (s.role a).holds = false := by
    intro a
    rw [away]
    rfl
  constructor
  case fits =>
    intro i
    rw [away]
    by_cases first : i = initproc
    · rw [first, initial.base.init]
      simp [Role.Fits, target]
    · rw [initial.base.others i first]
      simp [Role.Fits, target]
  case alive => exact fun i near => absurd (away _) near
  case held => simp [idle]
  case leaving => simp [away]
  case single => simp [idle]
  case awake =>
    intro _ _ i
    constructor
    · simp [away, Role.Heading]
    · rw [initial.base.data]
      by_cases first : i = initproc <;> simp [SleepsOn, booted, first]

/-- Every run with `lk` is a run of the machine. -/
theorem reach_base {chan : Chan} {ok : State C F → Event C F → Prop}
    (reached : (system C tenth chan).Reach ok s) : (Procs.system C tenth).Reachable s.base := by
  induction reached with
  | start initial => exact .start initial.base
  | step before admitted stepped ih =>
    cases does_of_next stepped with
    | base e allowed moved => exact .step ih trivial moved
    | sleep c i ch role tested called => exact .step ih trivial called
    | _ => exact ih

theorem reach_inv {chan : Chan} (own : ∀ i, chan ≠ .proc i) {ok : State C F → Event C F → Prop}
    (reached : (system C tenth chan).Reach ok s) : Inv chan s := by
  induction reached with
  | start initial => exact initial.inv
  | step before admitted stepped ih =>
    obtain ⟨a, -, refines⟩ := reach_refines (reach_base before)
    exact (does_of_next stepped).inv own refines.placed refines.kin ih

/-- `sleep` ends with `acquire(lk)`, when `ptable.lock` has been let go. -/
theorem Does.returns {chan : Chan} (does : Does chan tenth s s')
    (placed : Placed s.base.control s.base.data) (before : (s.role (.thread i)).inSleep = true)
    (after : (s'.role (.thread i)).inSleep = false) :
    ∃ c, s'.base.control.thread c = some i ∧ s'.lk = some c ∧ s'.base.control.lock ≠ some c := by
  -- a step by somebody else, or out of a role that is not in `sleep`, is no return
  have other : ∀ {a : Agent C} {r : Role}, (s.role a).inSleep = false ∨ r.inSleep = true →
      (Function.update s.role a r (.thread i)).inSleep = true := by
    intro a r outside
    rw [Function.update_apply]
    split
    next same =>
      rcases outside with outside | inside
      · rw [← same, before] at outside
        cases outside
      · exact inside
    next => exact before
  have never : ∀ {P : Prop}, (s'.role (.thread i)).inSleep = true → P := by
    intro P inside
    rw [after] at inside
    cases inside
  cases does with
  | base e allowed stepped =>
    apply never
    exact Role.follow_inSleep.trans before
  | acquire a c acts rests role free =>
    by_cases mine : a = .thread i
    · subst mine
      have running := (actor_eq_some acts).2 i rfl
      refine ⟨c, running, rfl, ?_⟩
      show s.base.control.lock ≠ some c
      rw [Ne, placed.seats.lock]
      obtain ⟨idle, run, cur⟩ := Control.thread_eq_some running
      rw [Control.holds_of_idle idle]
      simp [Control.base, run, cur, rests_user rests, Point.holds]
    · apply never
      show (Function.update s.role a _ (.thread i)).inSleep = true
      rw [Function.update_of_ne (Ne.symm mine)]
      exact before
  | starts a c seat rests role | set a owes rests role | clear a owes rests role | release a rests role =>
    exact never (other (.inl (by rw [role]; rfl)))
  | sleep c j ch role tested called | handOver c j ch running role => exact never (other (.inr rfl))

/-- **No wakeup is lost.** In every state that any number of CPUs, with sleepers and wakers that
keep to `lk`, can reach: if `lk` is free and the condition is true, nobody is asleep on `chan`. With
`lk` free no waker is under way, and a condition that is true has been so since the last of them
finished. And whoever returns from `sleep` holds `lk`, on the CPU it runs on, and not `ptable.lock`.
The addresses of processes are left to `wait`, whose lock is `ptable.lock` itself. -/
theorem no_lost_wakeup {tenth : F} {chan : Chan} (own : ∀ i, chan ≠ .proc i) {s : State C F}
    (reached : (system C tenth chan).Reachable s) :
    (s.lk = none → s.cond = true → ∀ i, ¬ SleepsOn chan (s.base.data.proc i)) ∧
      ∀ e s' i, next chan tenth s e = some s' → (s.role (.thread i)).inSleep = true →
        (s'.role (.thread i)).inSleep = false →
          ∃ c, s'.base.control.thread c = some i ∧ s'.lk = some c ∧
            s'.base.control.lock ≠ some c := by
  have inv := reach_inv own reached
  constructor
  · intro free cond i
    refine (inv.awake cond ?_ i).2
    intro a due
    have holds := inv.free free a
    rw [due] at holds
    cases holds
  · intro e s' i stepped before after
    exact (does_of_next stepped).returns (reach_placed (reach_base reached)) before after

end Runs

/-! ## A run -/

/-- `init` waits under `lk` for an interrupt handler on another CPU to set the condition, and is
about to take `lk` again. -/
def waitEvents : List (Event (Fin NCPU) ℚ) :=
  [.base (.advance 1), .base (.advance 1), .base (.advance 1),
    .call 1, .op 1 .acquire, .sleep 1 (.address 8), .base (.advance 1), .handOver 1,
    .base (.advance 1), .base (.advance 1),
    .trap 0, .op 0 .acquire, .op 0 .set, .base (.interrupt 0 (.wakeup (.address 8))),
    .base (.advance 0), .base (.advance 0), .op 0 .release,
    .base (.advance 1), .base (.advance 1), .base (.advance 1)]

def idle : State (Fin NCPU) ℚ := ⟨atBoot, none, false, fun _ => .away⟩

@[irreducible] def woken : State (Fin NCPU) ℚ :=
  ((system (Fin NCPU) (1 / 10) (.address 8)).run idle waitEvents).getD idle

theorem no_lost_wakeup_woken :
    (∀ i, ¬ SleepsOn (.address 8) (woken.base.data.proc i)) ∧
      ∃ s', next (.address 8) (1 / 10) woken (.op 1 .acquire) = some s' ∧
        ∃ c, s'.base.control.thread c = some 0 ∧ s'.lk = some c ∧
          s'.base.control.lock ≠ some c := by
  have start : Start idle := ⟨atBoot_start, rfl, fun _ => rfl⟩
  have reached : (system (Fin NCPU) (1 / 10 : ℚ) (.address 8)).Reachable woken := by
    unfold woken
    apply System.Reach.run_getD (.start start) (System.admits_true _ _ _)
    decide +kernel
  have safe := no_lost_wakeup (by simp) reached
  have free : woken.lk = none := by decide +kernel
  have set : woken.cond = true := by decide +kernel
  have before : (woken.role (.thread 0)).inSleep = true := by decide +kernel
  have returns : (next (.address 8) (1 / 10) woken (.op 1 .acquire)).map
      (fun s' => (s'.role (.thread 0)).inSleep) = some false := by
    decide +kernel
  obtain ⟨s', stepped, after⟩ := map_eq_some_iff.mp returns
  exact ⟨safe.1 free set, s', stepped, safe.2 _ s' 0 stepped before after⟩

end Handover

end Xv6.Procs
