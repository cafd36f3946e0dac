/-
  Subject:   `inode_write_at`, `inode_deny_write` and `inode_allow_write` on one inode, by any number of
             threads.

  `inode_write_at` tests `deny_write_cnt` once, before it waits for the semaphore of the inode, and then
  writes one sector after the other, each with a sleep in the driver before it. Nothing looks at the
  count again, and `inode_deny_write` does not wait for anybody.

  **`denied_writes_stay_off`**: if `inode_deny_write` is called only when no writer that has passed the
  test is under way, then no thread is at a `block_write` to the data of the inode while
  `deny_write_cnt > 0`.
-/
import Pintos.Lib.Pool
import Pintos.Filesys.Ownership

namespace Pintos

open Lib

/-! ## 1. The calls -/

inductive DenyCall where
  | write (buffer : ℕ → UInt8) (size : OffT) (offset : ℕ)
  | deny
  | allow

/-- What a thread runs; the result is the number of bytes written. -/
def denyProg (h : ℕ) : DenyCall → FsM ℕ
  | .write buffer size offset => inodeWriteAt h buffer size offset
  | .deny => (fun _ => 0) <$> inodeDenyWrite h
  | .allow => (fun _ => 0) <$> inodeAllowWrite h

abbrev DenyPool := Pool DenyCall Pause FileSys FsCrash ℕ

/-- **No `block_write` to a data sector of the inode** is made, or about to be carried out, while
    writes are denied. -/
def WritesAllowed (h : ℕ) (P : DenyPool) : Prop :=
  ∀ c k ready rest, (c, .pause (.write k) ready rest) ∈ P.active →
    InData (P.state.inode h).data k → (P.state.inode h).denyWriteCnt = 0

/-- Writes are denied only when no writer is under way. -/
def DenyWhenIdle (P : DenyPool) : PoolEvent DenyCall → Prop
  | .start .deny => P.active = []
  | _ => True

instance (P : DenyPool) : (e : PoolEvent DenyCall) → Decidable (DenyWhenIdle P e)
  | .start .deny => decidable_of_iff (P.active.isEmpty = true) List.isEmpty_iff
  | .start (.write _ _ _) | .start .allow | .go _ => .isTrue trivial

/-! ## 2. A writer leaves the count alone -/

def SameDeny (h : ℕ) (s s' : FileSys) : Prop :=
  (s'.inode h).denyWriteCnt = (s.inode h).denyWriteCnt

section Writer

variable {h : ℕ}

theorem SameDeny.refl (s : FileSys) : SameDeny h s s := rfl

theorem SameDeny.trans (a b c : FileSys) (h1 : SameDeny h a b) (h2 : SameDeny h b c) :
    SameDeny h a c := Eq.trans h2 h1

theorem within_malloc (s : FileSys) : malloc.Within (SameDeny h) s := by
  refine .get_bind ?_
  split
  · trivial
  · exact ⟨rfl, trivial⟩

theorem within_blockRead (sector : ℕ) (s : FileSys) : (blockRead sector).Within (SameDeny h) s := by
  refine .get_bind ?_
  split
  · exact fun _ _ => trivial
  · trivial

theorem within_blockWrite (sector : ℕ) (b : ℕ → UInt8) (s : FileSys) :
    (blockWrite sector b).Within (SameDeny h) s := by
  refine .get_bind ?_
  split
  · exact fun _ => ⟨rfl, fun _ => trivial⟩
  · trivial

/-- The loop of `inode_write_at`, whatever happens at its pauses. -/
theorem within_writeLoop (fuel : ℕ) (bounce : Bool) (buffer : ℕ → UInt8) (size offset : ℕ)
    (s : FileSys) : (writeLoop h fuel bounce buffer size offset).Within (SameDeny h) s := by
  induction fuel generalizing bounce buffer size offset s with
  | zero => trivial
  | succ fuel ih =>
    -- after the bounce buffer has been filled
    have htail : ∀ sector b (buffer' : ℕ → UInt8) size' offset' chunk (s : FileSys), (do
        blockWrite sector b
        let rest ← writeLoop h fuel true buffer' size' offset'
        return chunk + rest : FsM ℕ).Within (SameDeny h) s := fun _ _ _ _ _ _ s =>
      .bind (within_blockWrite _ _ s) fun _ _ => .bind (ih _ _ _ _ _) fun _ _ => trivial
    refine .get_bind (.ite trivial (.ite ?_ (.ite ?_ ?_)))
    · exact .bind (within_blockWrite _ _ s) fun _ _ => .bind (ih _ _ _ _ _) fun _ _ => trivial
    · exact .bind (show (pure true : FsM Bool).Within _ s from trivial) fun _ s =>
        .ite (.ite (.bind (within_blockRead _ s) fun _ s => htail _ _ _ _ _ _ s)
          (htail _ _ _ _ _ _ s)) trivial
    · exact .bind (within_malloc s) fun _ s =>
        .ite (.ite (.bind (within_blockRead _ s) fun _ s => htail _ _ _ _ _ _ s)
          (htail _ _ _ _ _ _ s)) trivial

theorem within_inodeWriteAt (buffer : ℕ → UInt8) (size : Int) (offset : ℕ) (s : FileSys) :
    (inodeWriteAt h buffer size offset).Within (SameDeny h) s := by
  have hsema : ∀ (s : FileSys) n, SameDeny h s (s.setInode h { s.inode h with sema := n }) :=
    fun s n => by
      show (Function.update s.inode h _ h).denyWriteCnt = _
      rw [Function.update_self]
  refine .get_bind (.ite trivial (.bind .await fun _ s => .bind (.modify (hsema s _)) fun _ s => ?_))
  exact .bind (within_writeLoop _ _ _ _ _ s) fun n s => .bind (.modify (hsema s _)) fun _ s =>
    .bind .await fun _ _ => trivial

variable {buffer : ℕ → UInt8} {size : Int} {i offset : ℕ} {s s' : FileSys} {p p' : FsM ℕ}
  {P P' : DenyPool} {c : DenyCall}

theorem settle_denied (hd : (s.inode h).denyWriteCnt ≠ 0)
    (hs : (inodeWriteAt h buffer size offset).settle s = .ok (p, s')) : p = .ret 0 := by
  have hret : (inodeWriteAt h buffer size offset).settle s = .ok (.ret 0, s) := by
    show (if (s.inode h).denyWriteCnt ≠ 0 then _ else _ : FsM ℕ).settle s = _
    rw [if_pos hd]
    rfl
  rw [hret] at hs
  cases hs
  rfl

theorem settle_deny (hs : (denyProg h .deny).settle s = .ok (p, s')) : p = .ret 0 := by
  obtain ⟨c, expr, s₁, hs1⟩ : ∃ c expr s₁,
      (assert c expr >>= fun _ => pure 0 : FsM ℕ).settle s₁ = .ok (p, s') := ⟨_, _, _, hs⟩
  cases c with
  | true =>
    cases hs1
    rfl
  | false => cases hs1

/-- `inode_allow_write` has none either, and asserts that writes are denied. -/
theorem settle_allow (hs : (denyProg h .allow).settle s = .ok (p, s')) :
    p = .ret 0 ∧ (s.inode h).denyWriteCnt ≠ 0 := by
  obtain ⟨c₁, c₂, c₃, e₁, e₂, e₃, s₁, hc1, hs1⟩ : ∃ c₁ c₂ c₃ e₁ e₂ e₃ s₁,
      c₁ = decide (0 < (s.inode h).denyWriteCnt) ∧
      ((do assert c₁ e₁; assert c₂ e₂; set s₁; assert c₃ e₃ : FsM Unit) >>= fun _ =>
        pure 0 : FsM ℕ).settle s = .ok (p, s') := ⟨_, _, _, _, _, _, _, rfl, hs⟩
  cases c₁ <;> cases c₂ <;> cases c₃ <;> cases hs1
  exact ⟨rfl, Nat.pos_iff_ne_zero.mp (of_decide_eq_true hc1.symm)⟩

/-! ## 3. The invariant -/

/-- The writers under way have passed their test, and since then nobody has denied writes. -/
structure DenyInv (h : ℕ) (P : DenyPool) : Prop where
  within : ∀ x ∈ P.active, ∀ s, x.2.Within (SameDeny h) s
  allowed : P.active ≠ [] → (P.state.inode h).denyWriteCnt = 0

theorem DenyInv.of_idle (hidle : P.active = []) : DenyInv h P where
  within x hx := by rw [hidle] at hx; cases hx
  allowed hne := absurd hidle hne

theorem DenyInv.write (hi : DenyInv h P)
    (hs : (inodeWriteAt h buffer size offset).settle P.state = .ok (p, s)) :
    DenyInv h (.arrive s c (fun p => P.active ++ [(c, p)]) P.active P.log p) := by
  obtain ⟨hsame, hwithin⟩ := (within_inodeWriteAt buffer size offset P.state).settle
    SameDeny.refl SameDeny.trans hs
  have hcount : (s.inode h).denyWriteCnt = (P.state.inode h).denyWriteCnt := hsame
  rcases Pool.arrive_active s c (fun p => P.active ++ [(c, p)]) P.active P.log p with
    ⟨_, _, hact⟩ | ⟨hret, hact⟩
  · refine ⟨?_, ?_⟩ <;> rw [hact]
    · exact hi.within
    · rw [Pool.arrive_state, hcount]
      exact hi.allowed
  · refine ⟨?_, fun _ => ?_⟩
    · rw [hact]
      intro x hx
      rcases List.mem_append.mp hx with hx | hx
      · exact hi.within x hx
      · rw [List.mem_singleton.mp hx]
        exact hwithin
    · rw [Pool.arrive_state, hcount]
      by_contra hd
      exact hret 0 (settle_denied hd hs)

theorem DenyInv.go (hi : DenyInv h P) (hp : P.active[i]? = some (c, p))
    (hs : p.resume P.state = some (.ok (p', s))) :
    DenyInv h (.arrive s c (fun p => P.active.set i (c, p)) (P.active.eraseIdx i) P.log p') := by
  have hmem : (c, p) ∈ P.active := List.mem_of_getElem? hp
  obtain ⟨hsame, hwithin⟩ := Prog.Within.resume SameDeny.refl SameDeny.trans
    (hi.within _ hmem) hs
  have hcount : (s.inode h).denyWriteCnt = (P.state.inode h).denyWriteCnt := hsame
  refine ⟨fun x hx => ?_, fun _ => ?_⟩
  · rcases Pool.arrive_active s c (fun p => P.active.set i (c, p)) (P.active.eraseIdx i) P.log p' with
      ⟨_, _, hact⟩ | ⟨_, hact⟩
    · rw [hact] at hx
      exact hi.within x (List.mem_of_mem_eraseIdx hx)
    · rw [hact] at hx
      rcases List.mem_or_eq_of_mem_set hx with hx | rfl
      · exact hi.within x hx
      · exact hwithin
  · rw [Pool.arrive_state, hcount]
    exact hi.allowed (List.ne_nil_of_mem hmem)

theorem DenyInv.step {e : PoolEvent DenyCall} (hi : DenyInv h P) (hok : DenyWhenIdle P e)
    (hstep : P.step (denyProg h) e = some P') : DenyInv h P' := by
  obtain ⟨c, p, s, rfl, hs, rfl⟩ | ⟨i, c, p, p', s, rfl, hp, hs, rfl⟩ := Pool.step_cases hstep
  · cases c with
    | write buffer size offset => exact hi.write hs
    | deny =>
      cases settle_deny hs
      exact .of_idle hok
    | allow =>
      obtain ⟨rfl, hd⟩ := settle_allow hs
      refine .of_idle ?_
      by_contra hne
      exact hd (hi.allowed hne)
  · exact hi.go hp hs

/-- **Denied writes do not reach the disk** if writes are denied only while no writer that has passed
    its test is under way: whatever the threads do, nobody is at a `block_write` to the data of the
    inode while `deny_write_cnt` is positive. -/
theorem denied_writes_stay_off {s₀ : FileSys} {P : DenyPool}
    (hr : Reach (Pool.step (denyProg h)) DenyWhenIdle ⟨s₀, [], []⟩ P) : WritesAllowed h P := by
  have hinv : DenyInv h P := hr.invariant (DenyInv.of_idle rfl)
    fun _ _ _ hi hok hstep => hi.step hok hstep
  exact fun _ _ _ _ hmem _ => hinv.allowed (List.ne_nil_of_mem hmem)

end Writer

/-! ## 4. A file that is opened and written -/

/-- "a" with one byte, created and opened on a device of eight sectors. -/
def openedFile : Option FileSys :=
  smallDisk.bind fun s => runList fsStep s [.create nameA ⟨1, by decide⟩, .openName nameA]

/-- The inode of the file opened last. -/
def FileSys.lastOpened (s : FileSys) : ℕ := (s.file (s.openFiles.headD 0)).inode

/-- One byte is written at the start of the file. -/
def writeByte : DenyCall := .write (fun _ => 1) ⟨1, by decide⟩ 0

/-- The sector of the `block_write` that the only thread under way is at, the count, and the data of
    the inode. -/
def pending (h : ℕ) (P : DenyPool) : Option (ℕ × ℕ × InodeDisk) :=
  match P.active with
  | [(_, .pause (.write k) _ _)] => some (k, (P.state.inode h).denyWriteCnt, (P.state.inode h).data)
  | _ => none

/-- What becomes of the threads that take the steps. -/
def afterSteps (m : ℕ → DenyPool → PoolEvent DenyCall → Option DenyPool)
    (steps : List (PoolEvent DenyCall)) : Option (ℕ × DenyPool) :=
  openedFile.bind fun s => (runList (m s.lastOpened) ⟨s, [], []⟩ steps).map fun P =>
    (s.lastOpened, P)

/-- Writes are denied and allowed again, and then a byte is written. -/
def allowedSteps : List (PoolEvent DenyCall) :=
  [.start .deny, .start writeByte, .start .allow, .start writeByte, .go 0, .go 0, .go 0]

theorem denied_writes_stay_off_between : ∃ x,
    afterSteps (fun h => stepIf (Pool.step (denyProg h)) DenyWhenIdle) allowedSteps = some x ∧
      pending x.1 x.2 = some (5, 0, ⟨5, 1⟩) ∧ WritesAllowed x.1 x.2 := by
  have hafter : ((afterSteps (fun h => stepIf (Pool.step (denyProg h)) DenyWhenIdle) allowedSteps).map
      fun x => pending x.1 x.2) = some (some (5, 0, ⟨5, 1⟩)) := by decide
  obtain ⟨x, hx, hp⟩ := Option.map_eq_some_iff.mp hafter
  refine ⟨x, hx, hp, ?_⟩
  obtain ⟨s, _, hrun⟩ := Option.bind_eq_some_iff.mp hx
  obtain ⟨P, hP, rfl⟩ := Option.map_eq_some_iff.mp hrun
  exact denied_writes_stay_off (reach_runIf _ hP)

/-- Writes are denied while the writer reads the sector. -/
def deniedSteps : List (PoolEvent DenyCall) := [.start writeByte, .go 0, .start .deny, .go 0, .go 0]

/-- **A denied write reaches the disk**: after that the writer comes to its `block_write`. -/
theorem denied_write_reaches_disk : ∃ s P, openedFile = some s ∧
    Reach (Pool.step (denyProg s.lastOpened)) always ⟨s, [], []⟩ P ∧
    pending s.lastOpened P = some (5, 1, ⟨5, 1⟩) ∧ ¬ WritesAllowed s.lastOpened P := by
  have hafter : ((afterSteps (fun h => Pool.step (denyProg h)) deniedSteps).map
      fun x => pending x.1 x.2) = some (some (5, 1, ⟨5, 1⟩)) := by decide
  obtain ⟨x, hx, hp⟩ := Option.map_eq_some_iff.mp hafter
  obtain ⟨s, hs, hrun⟩ := Option.bind_eq_some_iff.mp hx
  obtain ⟨P, hP, rfl⟩ := Option.map_eq_some_iff.mp hrun
  refine ⟨s, P, hs, reach_runList _ (fun _ _ _ => trivial) hP, hp, fun hw => ?_⟩
  unfold pending at hp
  split at hp
  · rename_i c k ready rest hact
    simp only [Option.some.injEq, Prod.mk.injEq] at hp
    obtain ⟨rfl, hdeny, hdata⟩ := hp
    have hzero := hw c 5 ready rest (by rw [hact]; exact List.mem_singleton_self _)
      (by rw [hdata]; unfold InData; decide)
    rw [hdeny] at hzero
    cases hzero
  · cases hp

end Pintos
