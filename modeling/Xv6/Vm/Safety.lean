/-
# Xv6.Vm.Safety -- no page in use is free

`step_effect` says once what a step of the system can do. The books then stay sound over every run
in which a call that takes mappings down (`sbrk` with a smaller size, a successful `exec`, the `wait`
that finds a zombie) does so only with mappings that are the only one of their page and whose page
the shared-memory table does not record. So no page that a process maps is free, and no page is
freed twice.

The condition cannot be dropped: `deallocuvm` frees every page it unmaps. Opening a segment twice and
giving the last page back with `sbrk` leaves a free page mapped (`sbrk_frees_shared_page`).
-/
import Xv6.Vm.Boot

namespace Xv6.Vm
open Lib
set_option autoImplicit false

/-! ## What a step does -/

/-- Mappings that a call takes down are private: the only ones of their page, and the page is not
recorded in the shared-memory table. -/
def Unshared (k : Kernel) : Event → Prop
  | .sbrk i n => Unshares k i n
  | .exec i file path argv =>
    (∃ k', exec k i file path argv = .ok (0, k')) → ∀ v, k.Private i v
  | .wait i _ => ∀ j, zombieChild k i = some j → ∀ v, k.Private j v
  | .openshmem _ _ | .closeshmem _ _ | .fork _ | .exit _ => True

/-- The calls that can tear a hole below the size of a process do not: `sbrk` does not go down to
size 0 (where `growproc` takes the result for a failure), and `closeshmem` clears no entry below
the size. -/
def Solid (k : Kernel) : Event → Prop
  | .sbrk i n => ¬(n < 0 ∧ addSigned (k.procs i).sz n = 0)
  | .closeshmem i id => findShm k id ≠ none → pages (k.procs i).sz ≤ k.lastOpened i
  | .openshmem _ _ | .fork _ | .exec _ _ _ _ | .exit _ | .wait _ _ => True

/-- What a step can have done. -/
inductive Effect (S : User → Fin NSHPAGE → Prop) (k : Kernel) : Event → Kernel → Prop where
  | quiet {e : Event} {k' : Kernel} (quiet : Quiet S k k') (full : Solid k e → k.Full → k'.Full) :
      Effect S k e k'
  | exited {i : Slot} {k' : Kernel} (same : SameSpaces k k') (held : k'.shmHeld = k.shmHeld)
      (state : ∀ l, (k'.procs l).state = if l = i then .ZOMBIE else (k.procs l).state) :
      Effect S k (.exit i) k'
  | opened {i : Slot} {id : Int} {r : Option Nat} {k' : Kernel} (held : k.shmHeld = false)
      (opened : Opened k i id k' r) : Effect S k (.openshmem i id) k'
  | closed {i : Slot} {id : Int} {j : Fin NSHPAGE} {k' : Kernel} (held : k.shmHeld = false)
      (closed : Closed k i id j k') : Effect S k (.closeshmem i id) k'

section Steps

variable {k k' : Kernel} {S : User → Fin NSHPAGE → Prop} {e : Event} {i : Slot}

theorem step_effect (inv : Inv S k) (unshared : Unshared k e) (stepped : step k e = some k') :
    Effect S k e k' := by
  obtain ⟨can, ran⟩ := step_eq_some stepped
  cases e with
  | openshmem i id =>
    obtain ⟨⟨r, k₁⟩, called, rfl⟩ := map_eq_ok ran
    obtain ⟨held, opened⟩ := openshmem_cases inv called
    exact .opened held opened
  | closeshmem i id =>
    obtain ⟨⟨r, k₁⟩, called, rfl⟩ := map_eq_ok ran
    obtain ⟨held, ⟨-, -, rfl⟩ | ⟨j, -, closed⟩⟩ := closeshmem_cases inv called
    · exact .quiet (.refl inv) fun _ full => full
    · exact .closed held closed
  | fork i =>
    obtain ⟨⟨r, k₁⟩, called, rfl⟩ := map_eq_ok ran
    obtain ⟨quiet, full⟩ := fork_quiet inv called
    exact .quiet quiet fun _ => full
  | sbrk i n =>
    obtain ⟨⟨r, k₁⟩, called, rfl⟩ := map_eq_ok ran
    obtain ⟨quiet, full⟩ := growproc_quiet inv unshared called
    exact .quiet quiet full
  | exec i file path argv =>
    obtain ⟨⟨r, k₁⟩, called, rfl⟩ := map_eq_ok ran
    obtain ⟨quiet, full⟩ := exec_quiet inv unshared called
    exact .quiet quiet fun _ => full
  | exit i =>
    obtain ⟨same, held, state⟩ := exit_same can.ne_unused ran
    exact .exited same held state
  | wait i killed =>
    obtain ⟨⟨r, k₁⟩, called, rfl⟩ := map_eq_ok ran
    obtain ⟨quiet, full⟩ := wait_quiet inv unshared called
    exact .quiet quiet fun _ => full

theorem Opened.inv {id : Int} {r : Option Nat} (opened : Opened k i id k' r) (inv : Inv S k) :
    ∃ S', Inv S' k' := by
  cases opened with
  | full miss noSlot same => exact ⟨S, same ▸ inv⟩
  | noPage j miss slot empty shape => exact ⟨S, shape ▸ inv.retag rfl⟩
  | noTable j k₁ e claim empty shape =>
    obtain ⟨S₁, inv₁⟩ := claim.inv inv
    exact ⟨S₁, shape ▸ ⟨inv₁.sound, inv₁.procs⟩⟩
  | mapped j k₁ e S₁ claim attached shm held => exact ⟨_, attached.inv⟩

theorem Effect.inv (effect : Effect S k e k') (inv : Inv S k) : ∃ S', Inv S' k' := by
  cases effect with
  | quiet quiet full => exact ⟨S, quiet.inv⟩
  | exited same held state => exact ⟨S, same.inv inv⟩
  | opened held opened => exact opened.inv inv
  | closed held closed => exact closed.inv

end Steps

variable {k : Kernel} {n : Nat}

theorem reach_sane {ok : Kernel → Event → Prop} (condition : ∀ k e, ok k e → Unshared k e)
    (reached : system.Reach ok k) : k.Sane := by
  refine System.Reach.invariant ?_ ?_ reached
  · intro k start
    exact ⟨_, (Start.first start).inv⟩
  · intro k e k' inv admitted stepped
    obtain ⟨S, inv⟩ := inv
    exact (step_effect inv (condition k e admitted) stepped).inv inv

/-! ## One process grows and shrinks -/

section Sbrk

variable {S : User → Fin NSHPAGE → Prop} {d : PgDir} {x : Nat}

theorem growproc_eq {i : Slot} (hasDir : (k.procs i).pgdir = some d) (n : Int) :
    growproc k i n = resize (k.procs i).sz n ⟨d, k.mem⟩ >>= fun p =>
      if n ≠ 0 ∧ p.1 = 0 then .ok (-1, k.setSpace i p.2)
      else .ok (0, (k.setSpace i p.2).setProc i { (k.setSpace i p.2).procs i with sz := p.1 }) := by
  rw [growproc, space_ok hasDir, ok_bind]
  rfl

/-- Nobody maps a page that is free, and no slot records it. -/
theorem Inv.fresh {m : Mem} (inv : Inv S k) (taken : kalloc k.mem = some (x, m)) :
    (∀ l u, k.page l u ≠ some x) ∧ ∀ r, (k.shm r).phys ≠ x := by
  have inside : x ∈ k.mem.free := by
    rw [(kalloc_eq_some taken).1]
    simp
  constructor
  · intro l u mapped
    exact inv.sound.books.user_not_free (u := (some l, u)) mapped inside
  · intro r recorded
    exact inv.sound.books.record_not_free r (show (k.shm r).phys ∈ k.mem.free from recorded ▸ inside)

/-- Growing by a page goes through, and nobody else has the page. -/
theorem Solo.grow (solo : Solo n k) (few : n < 32) :
    ∃ x k', step k (.sbrk 0 4096) = some k' ∧ Solo (n + 1) k' ∧ Usable k'.mem.layout x ∧
      k'.page 0 n = some x ∧ k'.Private 0 n := by
  obtain ⟨S, inv⟩ := solo.sane
  obtain ⟨d, hasDir⟩ := inv.dir solo.can
  have plenty := solo.plenty
  have half : 64 < KERNPAGE := by decide
  have small : KERNPAGE < VPAGES := by decide
  have first : pages (k.procs 0).sz = n := by
    rw [solo.size, pages_mul]
  have absent := ((inv.procs 0).sized d hasDir).above n first.le (by omega)
  obtain ⟨x, rest, list⟩ : ∃ x rest, k.mem.free = x :: rest :=
    List.exists_cons_of_length_pos (by omega)
  rw [list, List.length_cons] at plenty
  have taken := kalloc_cons list
  obtain ⟨unmapped, unrecorded⟩ := inv.fresh taken
  let s : Space := ⟨d, Mem.fill { k.mem with free := rest } x 0⟩
  have someFree : s.mem.free ≠ [] := List.ne_nil_of_length_pos (show 0 < rest.length by omega)
  obtain ⟨t, walked⟩ := walkpgdirAlloc_of_free someFree n
  obtain ⟨layout, free⟩ := (walkpgdirAlloc_takenFrom walked).1
  have left := (walkpgdirAlloc_takenFrom walked).2
  let s' := t.store n ⟨x, true, true, true⟩
  let k' := (k.setSpace 0 s').setProc 0 { (k.setSpace 0 s').procs 0 with sz := (n + 1) * PGSIZE }
  have mapped : mappages (n * PGSIZE) PGSIZE (x * PGSIZE) userPerm s = .ok (true, s') := by
    rw [mappages_one (by omega)]
    exact mapOne_ok x userPerm absent walked
  have newsz : addSigned (n * PGSIZE) 4096 = (n + 1) * PGSIZE ∧ (n + 1) * PGSIZE < KERNBASE := by
    simp only [addSigned, PGSIZE, KERNBASE]
    omega
  have resized : resize (k.procs 0).sz 4096 ⟨d, k.mem⟩ = .ok ((n + 1) * PGSIZE, s') := by
    rw [resize, if_pos (by decide), solo.size, newsz.1, allocuvm, if_neg (by omega),
      if_neg (by simp only [PGSIZE]; omega)]
    dsimp only
    rw [pgroundup_div (by simp only [PGSIZE] at *; omega), pages_mul, pages_mul,
      Nat.add_sub_cancel_left, allocLoop, taken]
    dsimp only
    rw [mapped]
    rfl
  have called : growproc k 0 4096 = .ok (0, k') := by
    rw [growproc_eq hasDir, resized, ok_bind, if_neg (by simp [PGSIZE])]
  obtain ⟨quiet, -⟩ := growproc_quiet inv (fun less => absurd less (by decide)) called
  have page : ∀ l u, k'.page l u = if l = 0 ∧ u = n then some x else k.page l u :=
    page_of_entry (by omega) hasDir (show (k'.procs 0).pgdir = some s'.dir by simp [k'])
      (fun l other => by simp [k', other]) fun u inU => pageAt_map walked inU (by omega) rfl
  have range : ∀ y ∈ k.mem.free, Usable k'.mem.layout y := fun y inside => by
    rw [show k'.mem.layout = k.mem.layout from layout]
    exact solo.range y inside
  refine ⟨x, k', step_of_perform solo.can (by rw [perform, called]; rfl),
    ⟨⟨S, quiet.inv⟩, ?_, by simp [k'], quiet.held.trans solo.held, ?_, fun y inside => ?_⟩,
    range x (by simp [list]), by rw [page, if_pos ⟨rfl, rfl⟩], ?_⟩
  · simpa [Kernel.CanCall, k'] using solo.can
  · change 128 ≤ t.mem.free.length + _
    change rest.length ≤ _ at left
    omega
  · refine range y ?_
    rw [list]
    exact List.mem_cons_of_mem x (free.subset inside)
  · intro y here
    rw [page, if_pos ⟨rfl, rfl⟩] at here
    cases here
    refine ⟨fun l u there => ?_, fun r => quiet.shm ▸ unrecorded r⟩
    rw [page] at there
    split at there
    · assumption
    · exact absurd there (unmapped l u)

theorem shrunk_size (few : n < 32) : addSigned ((n + 2) * PGSIZE) (-4096) = (n + 1) * PGSIZE := by
  simp only [addSigned, PGSIZE]
  omega

theorem Solo.unshared (solo : Solo (n + 2) k) (few : n < 32) (alone : k.Private 0 (n + 1)) :
    Unshared k (.sbrk 0 (-4096)) := by
  intro _ _ v above x found
  obtain ⟨S, inv⟩ := solo.sane
  obtain ⟨d, hasDir⟩ := inv.dir solo.can
  rw [solo.size, shrunk_size few, pages_mul] at above
  rcases above.eq_or_lt with rfl | above
  · exact alone x found
  · have none_ := ((inv.procs 0).sized d hasDir).above v (by rwa [solo.size, pages_mul])
    by_cases inV : v < KERNPAGE
    · simp [Kernel.page, hasDir, none_ inV] at found
    · simp [Kernel.page, inV] at found

/-- Giving the last page back with `sbrk` frees it, whoever else maps it. -/
theorem Solo.sbrk (solo : Solo (n + 2) k) (few : n < 32) (mapped : k.page 0 (n + 1) = some x)
    (usable : Usable k.mem.layout x) :
    ∃ k', step k (.sbrk 0 (-4096)) = some k' ∧ k'.mem.free = x :: k.mem.free ∧
      ∀ u, u ≠ n + 1 → k'.page 0 u = k.page 0 u := by
  obtain ⟨S, inv⟩ := solo.sane
  obtain ⟨d, hasDir⟩ := inv.dir solo.can
  have half : 64 < KERNPAGE := by decide
  have small : KERNPAGE < VPAGES := by decide
  have isPage : pageAt d (n + 1) = some x := by
    simpa [Kernel.page, hasDir, show n + 1 < KERNPAGE by omega] using mapped
  have less : min ((n + 2) * PGSIZE) ((n + 1) * PGSIZE) = (n + 1) * PGSIZE := by
    simp only [PGSIZE]
    omega
  have newsz := shrunk_size few
  have last : pagesIn d (n + 1) 1 = [x] := by
    simp [pagesIn, isPage]
  have bound : (n + 2) * PGSIZE ≤ KERNBASE := by
    simp only [PGSIZE, KERNBASE]
    omega
  rcases deallocuvm_spec ⟨d, k.mem⟩ ((n + 1) * PGSIZE) bound with
    ⟨s', ran, reaped⟩ | ⟨-, y, inside, refused⟩
  all_goals rw [pages_mul, pages_mul, Nat.add_sub_add_left] at *
  · have called : growproc k 0 (-4096) = .ok (0, (k.setSpace 0 s').setProc 0
        { (k.setSpace 0 s').procs 0 with sz := (n + 1) * PGSIZE }) := by
      rw [growproc_eq hasDir, resize, if_neg (by decide), if_pos (by decide), solo.size, newsz, ran,
        ok_bind, less, if_neg (by simp [PGSIZE])]
    refine ⟨_, step_of_perform solo.can (by rw [perform, called]; rfl), ?_, fun u other => ?_⟩
    · exact reaped.freed.free.trans (by rw [last]; rfl)
    · by_cases inU : u < KERNPAGE
      · have kept := reaped.kept u (by omega) (by omega)
        simp [Kernel.page, inU, hasDir, pageAt, kept]
      · simp [Kernel.page, inU]
  · rw [last, List.mem_singleton] at inside
    exact absurd ⟨usable.ne_zero inv.sound.linked, usable⟩ (inside ▸ refused)

end Sbrk

/-! ## Safety -/

/-- No page that a process maps is free, and no page was freed while it was free. -/
structure PageSafe (k : Kernel) : Prop where
  mapped : ∀ i v x, k.page i v = some x → x ∉ k.mem.free
  freedOnce : k.mem.doubled = false

theorem Inv.pageSafe {S : User → Fin NSHPAGE → Prop} (inv : Inv S k) : PageSafe k :=
  ⟨fun i v _ maps => inv.sound.books.user_not_free (u := (some i, v)) maps, inv.sound.clean⟩

/-- **Page safety.** In every state of every run in which torn-down mappings are private, no mapped
page is free and no page has been freed twice. -/
theorem mapped_pages_safe {k : Kernel} (reached : system.Reach Unshared k) : PageSafe k := by
  obtain ⟨S, inv⟩ := reach_sane (fun _ _ unshared => unshared) reached
  exact inv.pageSafe

/-- A process grows by a page and gives it back. -/
theorem mapped_pages_safe_shrunk : ∃ k k₁ k₂, Start k ∧ step k (.sbrk 0 4096) = some k₁ ∧
    step k₁ (.sbrk 0 (-4096)) = some k₂ ∧ k₁.mem.free.length < k₂.mem.free.length ∧ PageSafe k₂ := by
  obtain ⟨k, start⟩ := exists_start
  obtain ⟨x, k₁, grown, solo, usable, page, alone⟩ := start.first.solo.grow (by decide)
  obtain ⟨k₂, shrunk, free, -⟩ := solo.sbrk (by decide) page usable
  refine ⟨k, k₁, k₂, start, grown, shrunk, by simp [free], ?_⟩
  have admitted : Unshared k (.sbrk 0 4096) := fun less => absurd less (by decide)
  exact mapped_pages_safe (.step (.step (.start start) admitted grown)
    (solo.unshared (by decide) alone) shrunk)

/-! ## A shared page is freed -/

/-- One process opens segment 5 twice and gives the second page back: the page is on the free list
and still mapped. -/
theorem sbrk_frees_shared_page : ∃ k, system.Reachable k ∧ ¬PageSafe k := by
  obtain ⟨k, start, first⟩ := exists_first
  obtain ⟨x, k₁, stepped₁, solo₁, inside, mem₁, shm₁, -, -, page₁⟩ :=
    first.openshmem 5 (by decide)
  have hit : findShm k₁ 5 = some 0 := findShm_zero (by rw [shm₁])
  obtain ⟨j, k₁', e, k₂, stepped₂, solo₂, claim, -, -, mem₂, page₂⟩ :=
    solo₁.openshmem 5 (by decide) (.inl (by simp [hit]))
  have phys : (k₁'.shm j).phys = x := by
    cases claim with
    | found hit' =>
      obtain rfl : 0 = j := Option.some.inj (hit.symm.trans hit')
      simp [shm₁]
    | created miss slot taken => simp [hit] at miss
  have range := first.range x inside
  have layout : k₂.mem.layout = k.mem.layout := mem₂.layout.trans mem₁.layout
  have second : k₂.page 0 2 = some x := by
    rw [page₂, if_pos ⟨rfl, rfl⟩, phys]
  obtain ⟨k₃, stepped₃, free, page₃⟩ := solo₂.sbrk (by decide) second (layout ▸ range)
  refine ⟨k₃, .step (.step (.step (.start start) trivial stepped₁) trivial stepped₂) trivial stepped₃,
    fun safe => ?_⟩
  have stillMapped : k₃.page 0 1 = some x := by
    rw [page₃ 1 (by decide), page₂, if_neg (by decide), page₁, if_pos ⟨rfl, rfl⟩]
  exact safe.mapped 0 1 x stillMapped (by simp [free])

end Xv6.Vm
