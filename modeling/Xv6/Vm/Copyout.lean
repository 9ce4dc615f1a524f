/-
# Xv6.Vm.Copyout -- copyout touches only mapped user pages

`copyout` goes page by page from the first address up, and asks `uva2ka` for each page. `uva2ka` looks
at the entry `walkpgdir` points to without asking whether there is one. So what the call does is decided
by the first address of the range that is not on a user page: if its page table is there the call
returns -1, otherwise an entry is read through a null pointer (`copyout_safe_iff`).

Everything is said by bytes: `target d va j` is the physical byte behind the `j`-th address of the range.
-/
import Xv6.Vm.Construction

namespace Xv6.Vm
open Lib List
set_option autoImplicit false

/-- The physical page behind user page `v`, if it is present and the user's. -/
def userPage (d : PgDir) (v : Nat) : Option Nat :=
  (walkpgdir d v).bind fun pte => if pte.p && pte.u then some pte.ppn else none

/-- The `j`-th address from `va` on. -/
def addr (va j : Nat) : Nat := (va + j) % 2 ^ 32

/-- The page and the offset behind the `j`-th address. -/
def target (d : PgDir) (va j : Nat) : Option (Nat × Nat) :=
  (userPage d (addr va j / PGSIZE)).map fun x => (x, addr va j % PGSIZE)

/-- Every page that overlaps the range is a present user page. -/
def AllUser (d : PgDir) (va len : Nat) : Prop := ∀ j, j < len → target d va j ≠ none

/-- The first address of the range that is not on a user page, if there is one, has a page table. -/
def Tabled (d : PgDir) (va len : Nat) : Prop :=
  ∀ j, j < len → (∀ i, i < j → target d va i ≠ none) → walkpgdir d (addr va j / PGSIZE) ≠ none

/-- No byte but those behind the range has changed. -/
def Framed (d : PgDir) (va len : Nat) (m m' : Mem) : Prop :=
  ∀ x o, (∀ j, j < len → target d va j ≠ some (x, o)) → m'.bytes x o = m.bytes x o

/-- The bytes behind the range hold `buf`; where two addresses share a byte, the later one counts. -/
def Stored (d : PgDir) (va : Nat) (buf : List Byte) (m' : Mem) : Prop :=
  ∀ j b x o, buf[j]? = some b → target d va j = some (x, o) →
    (∀ i, j < i → i < buf.length → target d va i ≠ some (x, o)) → m'.bytes x o = b

section Rounds

variable {d : PgDir} {va len j : Nat} {buf : List Byte} {m m' : Mem} {x : Nat}

theorem write_bytes (m : Mem) (x start : Nat) (text : List Byte) (y o : Nat) :
    (m.write x start text).bytes y o =
      if y = x ∧ start ≤ o then (text[o - start]?).getD (m.bytes y o) else m.bytes y o := by
  unfold Mem.write Mem.setPage
  by_cases same : y = x
  · subst same
    by_cases above : start ≤ o <;> simp [above]
  · simp [same]

/-- The bytes of one round, and the address the next one starts at. -/
def roundLength (va len : Nat) : Nat := min (PGSIZE - va % PGSIZE) len

def nextPage (va : Nat) : Nat := (va - va % PGSIZE + PGSIZE) % 2 ^ 32

section

variable (inVa : va < 2 ^ 32)
include inVa

theorem addr_round (inside : j < roundLength va len) :
    addr va j / PGSIZE = va / PGSIZE ∧ addr va j % PGSIZE = va % PGSIZE + j := by
  simp only [addr, roundLength, PGSIZE] at *
  omega

theorem addr_next (later : roundLength va len ≤ j) (inside : j < len) :
    addr va j = addr (nextPage va) (j - roundLength va len) := by
  simp only [addr, nextPage, roundLength, PGSIZE] at *
  omega

theorem target_round (inside : j < roundLength va len) :
    target d va j = (userPage d (va / PGSIZE)).map fun x => (x, va % PGSIZE + j) := by
  obtain ⟨page, offset⟩ := addr_round inVa inside
  rw [target, page, offset]

theorem target_next (later : roundLength va len ≤ j) (inside : j < len) :
    target d va j = target d (nextPage va) (j - roundLength va len) := by
  rw [target, addr_next inVa later inside, target]

theorem target_shift {i : Nat} (inside : roundLength va len + i < len) :
    target d va (roundLength va len + i) = target d (nextPage va) i := by
  rw [target_next inVa (Nat.le_add_right ..) inside, Nat.add_sub_cancel_left]

end

theorem roundLength_pos (some_ : 0 < len) : 0 < roundLength va len := by
  simp only [roundLength, PGSIZE]
  omega

theorem roundLength_le : roundLength va len ≤ len := Nat.min_le_right ..

section

variable (inVa : va < 2 ^ 32) (page : userPage d (va / PGSIZE) = some x)
include inVa page

/-- The range after a round on a user page. -/
theorem allUser_round : AllUser d va len ↔ AllUser d (nextPage va) (len - roundLength va len) := by
  constructor
  · intro all j inside
    rw [← target_shift inVa (show roundLength va len + j < len by omega)]
    exact all _ (by omega)
  · intro all j inside
    by_cases first : j < roundLength va len
    · simp [target_round inVa first, page]
    · rw [target_next inVa (by omega) inside]
      exact all _ (by omega)

theorem tabled_round : Tabled d va len ↔ Tabled d (nextPage va) (len - roundLength va len) := by
  constructor
  · intro tabled j inside before
    rw [← Nat.add_sub_cancel_left (roundLength va len) j,
      ← addr_next inVa (by omega) (show roundLength va len + j < len by omega)]
    refine tabled _ (by omega) fun i early => ?_
    by_cases first : i < roundLength va len
    · simp [target_round inVa first, page]
    · rw [target_next inVa (by omega) (show i < len by omega)]
      exact before _ (by omega)
  · intro tabled j inside before
    by_cases first : j < roundLength va len
    · rw [(addr_round inVa first).1]
      intro absent
      simp [userPage, absent] at page
    · rw [addr_next inVa (by omega) inside]
      refine tabled _ (by omega) fun i early => ?_
      rw [← target_shift inVa (show roundLength va len + i < len by omega)]
      exact before _ (by omega)

theorem framed_round (rest : Framed d (nextPage va) (buf.length - roundLength va buf.length)
      (m.write x (va % PGSIZE) (buf.take (roundLength va buf.length))) m') :
    Framed d va buf.length m m' := by
  intro y o outside
  rw [rest y o fun j inside => ?_, write_bytes]
  · split
    · rename_i here
      obtain ⟨rfl, above⟩ := here
      -- an offset of this round would be the target of its address
      have beyond : roundLength va buf.length ≤ o - va % PGSIZE := by
        by_contra first
        have early : o - va % PGSIZE < roundLength va buf.length := by omega
        have small : roundLength va buf.length ≤ buf.length := roundLength_le
        refine outside (o - va % PGSIZE) (by omega) ?_
        rw [target_round inVa early, page, Option.map_some,
          show va % PGSIZE + (o - va % PGSIZE) = o by omega]
      rw [getElem?_eq_none (by rw [length_take]; omega)]
      rfl
    · rfl
  · rw [← target_shift inVa (show roundLength va buf.length + j < buf.length by omega)]
    exact outside _ (by omega)

theorem stored_round (rest : Framed d (nextPage va) (buf.length - roundLength va buf.length)
      (m.write x (va % PGSIZE) (buf.take (roundLength va buf.length))) m')
    (stored : Stored d (nextPage va) (buf.drop (roundLength va buf.length)) m') :
    Stored d va buf m' := by
  intro j b y o isB hits last
  have inside : j < buf.length := (List.getElem?_eq_some_iff.mp isB).1
  by_cases first : j < roundLength va buf.length
  · rw [target_round inVa first, page] at hits
    obtain ⟨rfl, rfl⟩ := hits
    -- later rounds do not come back to this byte
    rw [rest x _ fun i inside' => ?_, write_bytes, if_pos ⟨rfl, by omega⟩,
      Nat.add_sub_cancel_left, getElem?_take_of_lt first, isB]
    · rfl
    · rw [← target_shift inVa (show roundLength va buf.length + i < buf.length by omega)]
      exact last _ (by omega) (by omega)
  · refine stored (j - roundLength va buf.length) b y o ?_ ?_ fun i later inside' => ?_
    · rw [getElem?_drop, show roundLength va buf.length + (j - roundLength va buf.length) = j by
        omega, isB]
    · rw [← target_next inVa (by omega) inside, hits]
    · rw [length_drop] at inside'
      rw [← target_shift inVa (show roundLength va buf.length + i < buf.length by omega)]
      exact last _ (by omega) (by omega)

end

/-- One page: the entry is read through a null pointer, the page is refused, or a round is copied. -/
theorem copyoutLoop_succ (n : Nat) (some_ : buf ≠ []) :
    copyoutLoop d (n + 1) va buf m = match walkpgdir d (va / PGSIZE) with
      | none => .error .stray
      | some _ => match userPage d (va / PGSIZE) with
        | none => .ok (false, m)
        | some x => copyoutLoop d n (nextPage va) (buf.drop (roundLength va buf.length))
            (m.write x (va % PGSIZE) (buf.take (roundLength va buf.length))) := by
  rw [copyoutLoop, if_neg some_]
  unfold uva2ka userPage
  cases walkpgdir d (va / PGSIZE) with
  | none => rfl
  | some pte =>
    dsimp only [Option.bind_some]
    by_cases user : (pte.p && pte.u) = true
    · rw [if_pos user, if_pos user]
      rfl
    · rw [if_neg user, if_neg user]
      rfl

/-- What the loop does. The rounds suffice: each copies a byte or more. -/
theorem copyoutLoop_spec {n : Nat} (inVa : va < 2 ^ 32) (enough : buf.length ≤ n) :
    (AllUser d va buf.length → ∃ m', copyoutLoop d n va buf m = .ok (true, m') ∧
        Stored d va buf m' ∧ Framed d va buf.length m m') ∧
      (¬AllUser d va buf.length → Tabled d va buf.length →
        ∃ m', copyoutLoop d n va buf m = .ok (false, m') ∧ Framed d va buf.length m m') ∧
      (¬Tabled d va buf.length → copyoutLoop d n va buf m = .error .stray) := by
  induction n generalizing va buf m with
  | zero =>
    obtain rfl := eq_nil_of_length_eq_zero (Nat.le_zero.mp enough)
    refine ⟨fun _ => ⟨m, rfl, by simp [Stored], fun _ _ _ => rfl⟩, fun not _ => ?_, fun not => ?_⟩
    · exact absurd (by simp [AllUser]) not
    · exact absurd (by simp [Tabled]) not
  | succ n ih =>
    by_cases empty : buf = []
    · subst empty
      refine ⟨fun _ => ⟨m, rfl, by simp [Stored], fun _ _ _ => rfl⟩, fun not _ => ?_, fun not => ?_⟩
      · exact absurd (by simp [AllUser]) not
      · exact absurd (by simp [Tabled]) not
    have positive := length_pos_iff.mpr empty
    have first : 0 < roundLength va buf.length := roundLength_pos positive
    have here : addr va 0 / PGSIZE = va / PGSIZE := (addr_round inVa first).1
    have target₀ : target d va 0 = (userPage d (va / PGSIZE)).map fun x => (x, va % PGSIZE + 0) :=
      target_round inVa first
    rw [copyoutLoop_succ n empty]
    cases walked : walkpgdir d (va / PGSIZE) with
    | none =>
      have notUser : ¬AllUser d va buf.length := fun all => all 0 positive (by
        simp [target₀, userPage, walked])
      have notTabled : ¬Tabled d va buf.length := fun tabled =>
        tabled 0 positive (by simp) (by rw [here, walked])
      exact ⟨fun all => absurd all notUser, fun _ tabled => absurd tabled notTabled, fun _ => rfl⟩
    | some pte =>
      cases page : userPage d (va / PGSIZE) with
      | none =>
        refine ⟨fun all => absurd (by simp [target₀, page]) (all 0 positive),
          fun _ _ => ⟨m, rfl, fun _ _ _ => rfl⟩, fun not => absurd (fun j inside before => ?_) not⟩
        cases j with
        | zero => simp [here, walked]
        | succ j => exact absurd (by simp [target₀, page]) (before 0 (Nat.succ_pos j))
      | some x =>
        have length : (buf.drop (roundLength va buf.length)).length =
            buf.length - roundLength va buf.length := length_drop ..
        obtain ⟨copied, refused, strayed⟩ := @ih (nextPage va)
          (buf.drop (roundLength va buf.length))
          (m.write x (va % PGSIZE) (buf.take (roundLength va buf.length)))
          (Nat.mod_lt _ (by decide)) (by omega)
        rw [length] at copied refused strayed
        rw [allUser_round inVa page, tabled_round inVa page]
        refine ⟨fun all => ?_, fun not tabled => ?_, strayed⟩
        · obtain ⟨m', ran, stored, framed⟩ := copied all
          exact ⟨m', ran, stored_round inVa page framed stored, framed_round inVa page framed⟩
        · obtain ⟨m', ran, framed⟩ := refused not tabled
          exact ⟨m', ran, framed_round inVa page framed⟩

end Rounds

/-- The call copies the buffer if all pages of the range are the user's, and otherwise returns -1; it
writes to nothing but bytes behind the range. -/
def CopiesOut (d : PgDir) (va : Nat) (buf : List Byte) (m : Mem) : Prop :=
  (AllUser d va buf.length → ∃ m', copyout d va buf m = .ok (true, m') ∧ Stored d va buf m' ∧
      Framed d va buf.length m m') ∧
    (¬AllUser d va buf.length → ∃ m', copyout d va buf m = .ok (false, m') ∧
      Framed d va buf.length m m')

/-- **copyout is safe** exactly if the first address of the range that is not on a user page has a
page table. -/
theorem copyout_safe_iff {va : Nat} (d : PgDir) (buf : List Byte) (m : Mem) (inVa : va < 2 ^ 32) :
    CopiesOut d va buf m ↔ Tabled d va buf.length := by
  obtain ⟨copied, refused, strayed⟩ := copyoutLoop_spec (d := d) (m := m) inVa (le_refl buf.length)
  constructor
  · rintro ⟨-, otherwise⟩
    by_contra not
    have stray := strayed not
    by_cases all : AllUser d va buf.length
    · obtain ⟨m', ran, -⟩ := copied all
      rw [stray] at ran
      cases ran
    · obtain ⟨m', ran, -⟩ := otherwise all
      rw [copyout, stray] at ran
      cases ran
  · intro tabled
    exact ⟨copied, fun not => refused not tabled⟩

/-- One page table, with one user page: pages 0 and 1 of the user. -/
def onePage : PgDir :=
  ⟨1024, fun i => if i = 0 then some ⟨1025, fun t => if t = 0 then ⟨1026, true, true, true⟩ else .zero⟩
    else none⟩

def noBytes : Mem := ⟨⟨0x200000, 0x108000⟩, [], fun _ _ => 0, false⟩

/-- A copy that runs from page 0 into page 1, which is not there, is refused. -/
theorem copyout_safe_onePage : CopiesOut onePage 4095 [7, 8] noBytes := by
  refine (copyout_safe_iff onePage [7, 8] noBytes (by decide)).mpr fun j inside _ => ?_
  have few : j = 0 ∨ j = 1 := by
    simp only [length_cons, length_nil] at inside
    omega
  rcases few with rfl | rfl <;> decide

/-- A copy to an address without a page table reads an entry through the null pointer: `exec` gets
there with a string of 40 megabytes, which takes the stack pointer to between the kernel's memory and
the devices. -/
theorem copyout_strays : copyout onePage 0xFD000000 [7] noBytes = .error .stray ∧
    ¬CopiesOut onePage 0xFD000000 [7] noBytes := by
  have stray : copyout onePage 0xFD000000 [7] noBytes = .error .stray := rfl
  refine ⟨stray, fun safe => ?_⟩
  obtain ⟨m', ran, -⟩ := safe.2 fun all => all 0 (by decide) (by decide)
  cases ran

end Xv6.Vm
