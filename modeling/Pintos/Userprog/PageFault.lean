/-
  Subject:   `page_fault` and `handle_mm_fault` (exception.c), for faults of user code.

  * A write of user code to a page that is not present goes to `stack_allocate` when `esp` lies in the
    stack region, whatever the fault address is, and to `handle_mm_fault` otherwise, which takes a
    frame and returns. Any other fault ends the process.
  * **`page_fault_progress_iff`**: the handler makes progress exactly when it ends the process or when
    the page of the fault is among those that `stack_allocate` maps.
  * The handler runs with interrupts on, so other processes come in between any two of its statements:
    their handlers, and whatever else takes frames and changes page directories. `handlerStep` is the
    handler, cut wherever it touches what the processes share.
  * **`stack_growth_iff`**: when the stack has grown to what `esp` needs, for a handler that gets every
    frame it asks for while no other handler moves `stack_page`.
-/
import Pintos.Threads.Thread
import Pintos.Userprog.StackGrowth

namespace Pintos

open Function Lib

/-! ## 1. The handler -/

/-- `PF_P`. -/
def pfP : Word := 0x1#32

/-- `PF_W`. -/
def pfW : Word := 0x2#32

/-- `PF_U`. -/
def pfU : Word := 0x4#32

/-- How `page_fault` ends for the process. -/
inductive FaultEnd where
  | returns (s : Vm)
  /-- `thread_exit` with this `exit_status`. -/
  | killed (exitStatus : Int)
  /-- A failed assertion. -/
  | panics

namespace Vm

/-- `handle_mm_fault`. The frame is not used, and if there is none the second call of
    `palloc_get_page` finds none either. -/
def handleMmFault (s : Vm) : Vm :=
  match s.free with
  | [] => s
  | _ :: free => { s with free := free }

/-- `page_fault` in the context of a user process, whose code segment `kill` finds in the frame. -/
def pageFault (s : Vm) (errorCode esp : Word) : FaultEnd :=
  let notPresent := decide (errorCode &&& pfP = 0#32)
  let write := decide (errorCode &&& pfW ≠ 0#32)
  let user := decide (errorCode &&& pfU ≠ 0#32)
  if notPresent && (write && user) then
    if s.stackGrowable esp then
      match s.stackAllocate esp with
      | some s' => .returns s'
      | none => .panics
    else .returns s.handleMmFault
  else .killed (-1)

end Vm

/-! ## 2. Progress -/

/-- **Progress**: the process is ended with status -1, or the page of the fault address is mapped with
    the access that was asked for; and every frame that was free is free or mapped. -/
def Progress (errorCode addr : Word) (s : Vm) : FaultEnd → Prop
  | .killed status => status = -1
  | .returns s' =>
    (∃ frame writable, s'.pages (pageNo addr) = some (frame, writable) ∧
      (errorCode &&& pfW ≠ 0#32 → writable = true)) ∧
    ∀ frame ∈ s.free, frame ∈ s'.free ∨ ∃ p writable, s'.pages p = some (frame, writable)
  | .panics => False

/-- A write of user code to a page that is not present. -/
def MissingWrite (errorCode : Word) : Prop :=
  errorCode &&& pfP = 0#32 ∧ errorCode &&& pfW ≠ 0#32 ∧ errorCode &&& pfU ≠ 0#32

instance (errorCode : Word) : Decidable (MissingWrite errorCode) :=
  inferInstanceAs (Decidable (_ ∧ _))

/-- **`stack_allocate` reaches the page of the address**: it lies below the counter, within the rounds
    and the free frames, and every page down to it can be installed. -/
def Reaches (s : Vm) (esp addr : Word) : Prop :=
  pageNo addr < 786432 ∧ s.stackPage < slotOf addr ∧
    slotOf addr - s.stackPage ≤ (0xc0000000 - 4096 * s.stackPage - esp.toNat + 4095) % 4096 ∧
    slotOf addr - s.stackPage ≤ s.free.length ∧
    ∀ i, s.stackPage < i → i ≤ slotOf addr → s.CanGrow i

namespace Vm

variable {s : Vm} {errorCode addr esp : Word}

theorem pageFault_missing (h : MissingWrite errorCode) : s.pageFault errorCode esp =
    if s.stackGrowable esp then
      match s.stackAllocate esp with
      | some s' => .returns s'
      | none => .panics else .returns s.handleMmFault := by
  unfold pageFault
  rw [decide_eq_true h.1, decide_eq_true h.2.1, decide_eq_true h.2.2]
  rfl

theorem pageFault_other (h : ¬ MissingWrite errorCode) :
    s.pageFault errorCode esp = .killed (-1) := by
  unfold pageFault
  rw [if_neg]
  intro hall
  simp only [Bool.and_eq_true, decide_eq_true_eq] at hall
  exact h hall

theorem Rounds.noLeak {n r : ℕ} {frames : List Word} {s' : Vm} (hr : Rounds s n r frames s') :
    ∀ frame ∈ s.free, frame ∈ s'.free ∨ ∃ p writable, s'.pages p = some (frame, writable) := by
  intro frame hmem
  rw [hr.free] at hmem
  rcases List.mem_append.mp hmem with hin | hin
  · obtain ⟨i, hi, rfl⟩ := List.mem_iff_getElem.mp hin
    refine .inr ⟨_, true, (hr.filled.mapped i hi).trans ?_⟩
    rw [List.getElem?_eq_getElem hi]
    rfl
  · exact .inl hin

end Vm

/-- **When a page fault of user code makes progress.** The page of a fault that is reported as not
    present has no mapping. -/
theorem page_fault_progress_iff {s : Vm} {errorCode addr esp : Word} (hg : s.stackPage ≤ 786432)
    (habs : errorCode &&& pfP = 0#32 → s.pages (pageNo addr) = none) :
    Progress errorCode addr s (s.pageFault errorCode esp) ↔
      ¬ MissingWrite errorCode ∨ (s.stackGrowable esp = true ∧ Reaches s esp addr) := by
  by_cases hm : MissingWrite errorCode
  · have hnone := habs hm.1
    rw [Vm.pageFault_missing hm]
    by_cases hgrow : s.stackGrowable esp = true
    · obtain ⟨-, hslot, hmax⟩ := Vm.slotOf_eq (by omega) hgrow
      have hallocs := Vm.pageAllocs_eq (by omega) hgrow
      obtain ⟨r, frames, s', hrun, hr⟩ := Vm.allocRounds_spec (s := s) (n := s.pageAllocs esp) (by omega)
      have hrun : s.stackAllocate esp = some s' := hrun
      have hrounds := hr.few
      have hfew := hr.filled.few
      have hframes : s.free.length = frames.length + s'.free.length := by
        rw [hr.free, List.length_append]
      rw [if_pos hgrow, hrun]
      refine ⟨fun hp => .inr ⟨hgrow, ?_⟩, fun hre => ?_⟩
      · -- the page is new, so it is one of those the rounds have mapped
        obtain ⟨frame, writable, hpage, -⟩ := hp.1
        have hin : slot (s.stackPage + frames.length) ≤ pageNo addr ∧
            pageNo addr < slot s.stackPage := by
          by_contra hout
          rw [hr.filled.others _ hout, hnone] at hpage
          cases hpage
        unfold slot at hin
        refine ⟨by omega, by unfold slotOf; omega, ?_, by unfold slotOf; omega,
          fun i h1 h2 => hr.filled.could i h1 (by unfold slotOf at h2; omega)⟩
        rw [← hallocs]
        unfold slotOf
        omega
      · rcases hre with hno | ⟨-, huser, hbelow, hallowed, hfree, hcan⟩
        · exact absurd hm hno
        · rw [← hallocs] at hallowed
          have ht : slotOf addr ≤ s.stackPage + frames.length := by
            by_contra hless
            rcases hr.filled.stop with hstop | hstop
            · rcases hr.stop with hall | hempty
              · omega
              · rw [hempty] at hframes
                have hall : s.free.length = frames.length := hframes
                omega
            · exact hstop (hcan _ (by omega) (by omega))
          obtain ⟨frame, hpage⟩ := hr.filled.page hbelow ht
          rw [show slot (slotOf addr) = pageNo addr by unfold slot slotOf; omega] at hpage
          exact ⟨⟨frame, true, hpage, fun _ => rfl⟩, hr.noLeak⟩
    · rw [if_neg hgrow]
      refine iff_of_false (fun hp => ?_) fun hre => ?_
      · obtain ⟨frame, writable, hpage, -⟩ := hp.1
        have hsame : s.handleMmFault.pages = s.pages := by
          unfold Vm.handleMmFault
          split <;> rfl
        rw [hsame, hnone] at hpage
        cases hpage
      · rcases hre with hno | hgr
        · exact hno hm
        · exact hgrow hgr.1
  · rw [Vm.pageFault_other hm]
    exact iff_of_true rfl (.inl hm)

/-- A write two bytes below the first page of the stack, with `esp` there too. -/
theorem page_fault_progress_two_bytes : Progress 6#32 0xbfffeffe#32 (oneStackPage [0xc0301000#32] 1)
      ((oneStackPage [0xc0301000#32] 1).pageFault 6#32 0xbfffeffe#32) := by
  refine (page_fault_progress_iff (by decide) (fun _ => by decide)).mpr
    (.inr ⟨by decide, by decide, by decide, by decide,
      by decide, fun i h1 h2 => ?_⟩)
  have hslot : slotOf 0xbfffeffe#32 = 2 := by decide
  have h1 : 1 < i := h1
  have hi : i = 2 := by omega
  subst hi
  decide +kernel

/-- **A write through a null pointer**: the handler takes a frame, returns, and the page of the fault
    is as before. -/
theorem null_write_faults_again : ∃ s',
    (oneStackPage [0xc0301000#32] 1).pageFault 6#32 0xbfffff00#32 = .returns s' ∧
    s'.pages (pageNo 0#32) = none ∧ s'.free = [] ∧
    ¬ Progress 6#32 0#32 (oneStackPage [0xc0301000#32] 1)
      ((oneStackPage [0xc0301000#32] 1).pageFault 6#32 0xbfffff00#32) := by
  have hend : (oneStackPage [0xc0301000#32] 1).pageFault 6#32 0xbfffff00#32 =
      .returns (oneStackPage [] 1) := by
    rw [Vm.pageFault_missing (by decide), if_neg (by decide)]
    rfl
  refine ⟨_, hend, by decide, rfl, fun hp => ?_⟩
  rw [hend] at hp
  obtain ⟨frame, writable, hpage, -⟩ := hp.1
  have hnone : (oneStackPage [] 1).pages (pageNo 0#32) = none := by decide
  rw [hnone] at hpage
  cases hpage

/-! ## 3. Statement by statement -/

/-- Where a process is in `page_fault`. -/
inductive FaultPlace where
  /-- In user code. -/
  | user
  /-- Before the call of `stack_growable`. -/
  | test (esp : Word)
  /-- Before `page_allocs` is computed. -/
  | count (esp : Word)
  /-- At the head of the loop, with so many rounds to go. -/
  | loop (left : ℕ)
  /-- Before `install_page`, with a frame in hand. -/
  | install (left : ℕ) (kpage : Word)
  /-- Before `stack_page++`. -/
  | grown (left : ℕ)
  /-- Before `palloc_free_page`. -/
  | undo (left : ℕ) (kpage : Word)
  /-- Before the first or the second `palloc_get_page` of `handle_mm_fault`. -/
  | mm (again : Bool)
  /-- Ended with status -1. -/
  | ended
deriving DecidableEq

/-- The next statement of a handler, on what it sees; `none` is a failed assertion. -/
def handlerStep (v : Vm) : FaultPlace → Option (FaultPlace × Vm)
  | .test esp => some (if v.stackGrowable esp then .count esp else .mm false, v)
  | .count esp => some (.loop (v.pageAllocs esp), v)
  | .loop 0 => some (.user, v)
  | .loop (left + 1) =>
    match v.free with
    | [] => some (.loop left, v)
    | kpage :: free => some (.install left kpage, { v with free := free })
  | .install left kpage =>
    (v.installPage (stackBottom v.stackPage - 4096#32) kpage true).map fun (v', success) =>
      (if success then .grown left else .undo left kpage, v')
  | .grown left => some (.loop left, { v with stackPage := v.stackPage + 1 })
  | .undo left kpage => some (.loop left, { v with free := kpage :: v.free })
  | .mm again =>
    match v.free with
    | [] => some (if again then .user else .mm true, v)
    | _ :: free => some (.user, { v with free := free })
  | .user => none
  | .ended => none

/-- The processes, and what they share. -/
structure FaultSys where
  pages : Tid → ℕ → Option (Word × Bool)
  tables : Tid → ℕ → Bool
  place : Tid → FaultPlace
  free : List Word
  stackPage : ℕ

namespace FaultSys

/-- What the handler of `t` sees. -/
def view (s : FaultSys) (t : Tid) : Vm := ⟨s.pages t, s.free, s.tables t, s.stackPage⟩

/-- The handler of `t` has come to `place`. -/
def store (s : FaultSys) (t : Tid) (place : FaultPlace) (v : Vm) : FaultSys :=
  { s with
    pages := update s.pages t v.pages
    tables := update s.tables t v.tables
    place := update s.place t place
    free := v.free
    stackPage := v.stackPage }

end FaultSys

inductive FaultEvent where
  /-- A page fault in user code. -/
  | fault (t : Tid) (errorCode esp : Word)
  /-- The next statement of the handler of `t`. -/
  | go (t : Tid)
  /-- Frames are taken or freed elsewhere. -/
  | pool (free : List Word)
  /-- The pages of `t`, or the memory for its page tables, change outside of its handler. -/
  | pages (t : Tid) (pages : ℕ → Option (Word × Bool)) (tables : ℕ → Bool)

def faultStep (s : FaultSys) : FaultEvent → Option FaultSys
  | .fault t errorCode esp =>
    if s.place t = .user then
      some { s with place := update s.place t (if MissingWrite errorCode then .test esp else .ended) }
    else none
  | .go t => (handlerStep (s.view t) (s.place t)).map fun (place, v) => s.store t place v
  | .pool free => some { s with free := free }
  | .pages t pages tables =>
    some { s with pages := update s.pages t pages, tables := update s.tables t tables }

/-! ## 4. A handler alone -/

/-- The handler of one process, with nobody else running. -/
def alone (p : FaultPlace × Vm) (_ : Unit) : Option (FaultPlace × Vm) := handlerStep p.2 p.1

theorem Vm.installPage_keeps {v v' : Vm} {upage kpage : Word} {w b : Bool}
    (h : v.installPage upage kpage w = some (v', b)) :
    v'.free = v.free ∧ v'.tables = v.tables ∧ v'.stackPage = v.stackPage := by
  unfold Vm.installPage at h
  split at h
  · split at h
    all_goals
      cases h
      exact ⟨rfl, rfl, rfl⟩
  · cases h

section Alone

variable {v v' : Vm} {n : ℕ}

theorem round_alone (h : v.allocRound = some v') (n : ℕ) :
    Reach alone always (.loop (n + 1), v) (.loop n, v') := by
  unfold Vm.allocRound at h
  cases hf : v.free with
  | nil =>
    rw [hf] at h
    cases h
    refine (Reach.start _).step (e := ()) trivial ?_
    unfold alone handlerStep
    rw [hf]
  | cons kpage free =>
    rw [hf] at h
    obtain ⟨⟨v₁, b⟩, hinst, hv⟩ := Option.map_eq_some_iff.mp h
    have htake : alone (.loop (n + 1), v) () = some (.install n kpage, { v with free := free }) := by
      unfold alone handlerStep
      rw [hf]
    have hnext : alone (.install n kpage, { v with free := free }) () =
        some (if b then .grown n else .undo n kpage, v₁) := by
      unfold alone handlerStep
      dsimp only
      rw [hinst]
      rfl
    have hreach : Reach alone always (.loop (n + 1), v) _ :=
      ((Reach.start _).step trivial htake).step trivial hnext
    obtain ⟨hfree, -, hpage⟩ := Vm.installPage_keeps hinst
    cases b with
    | true =>
      have hv : { v₁ with stackPage := v.stackPage + 1 } = v' := hv
      refine hreach.step (e := ()) trivial ?_
      show some (FaultPlace.loop n, { v₁ with stackPage := v₁.stackPage + 1 }) = _
      rw [hpage, ← hv]
    | false =>
      have hv : { v₁ with free := kpage :: v₁.free } = v' := hv
      rw [← hv]
      exact hreach.step (e := ()) trivial rfl

theorem rounds_alone (h : Vm.allocRounds n v = some v') :
    Reach alone always (.loop n, v) (.user, v') := by
  induction n generalizing v with
  | zero =>
    cases h
    exact (Reach.start _).step (e := ()) trivial rfl
  | succ n ih =>
    obtain ⟨v₁, hround, hrest⟩ := Option.bind_eq_some_iff.mp h
    exact (round_alone hround n).trans (ih hrest)

/-- **A handler that is not interrupted** does what `Vm.pageFault` says. -/
theorem fault_alone {errorCode esp : Word} (hm : MissingWrite errorCode)
    (h : v.pageFault errorCode esp = .returns v') : Reach alone always (.test esp, v) (.user, v') := by
  rw [Vm.pageFault_missing hm] at h
  have htest : alone (.test esp, v) () =
      some (if v.stackGrowable esp then .count esp else .mm false, v) := rfl
  have hreach : Reach alone always (.test esp, v) _ := (Reach.start _).step trivial htest
  by_cases hgrow : v.stackGrowable esp = true
  · rw [if_pos hgrow] at h hreach
    cases ha : v.stackAllocate esp with
    | none =>
      rw [ha] at h
      cases h
    | some v₁ =>
      rw [ha] at h
      cases h
      exact (hreach.step (e := ()) trivial rfl).trans (rounds_alone ha)
  · rw [if_neg hgrow] at h hreach
    cases h
    unfold Vm.handleMmFault
    cases hf : v.free with
    | nil =>
      have hmm : ∀ again, alone (.mm again, v) () =
          some (if again then .user else .mm true, v) := fun again => by
        unfold alone handlerStep
        rw [hf]
      exact (hreach.step trivial (hmm false)).step trivial (hmm true)
    | cons kpage free =>
      refine hreach.step (e := ()) trivial ?_
      unfold alone handlerStep
      rw [hf]

end Alone

/-! ## 5. A handler that nobody disturbs -/

/-- Before a `palloc_get_page` of the loop. -/
def FaultPlace.asks : FaultPlace → Bool
  | .loop left => left != 0
  | _ => false

/-- Before `stack_page++`. -/
def FaultPlace.moves : FaultPlace → Bool
  | .grown _ => true
  | _ => false

/-- **Nobody disturbs the handler of `t`**: no other handler moves `stack_page`, the pages of `t` and the
    memory for its page tables are left alone, and there is a frame whenever it asks for one. -/
def LeftAlone (t : Tid) (s : FaultSys) : FaultEvent → Prop
  | .fault u _ _ => u ≠ t
  | .go u => if u = t then (s.place t).asks = true → s.free ≠ [] else (s.place u).moves = false
  | .pool _ => True
  | .pages u _ _ => u ≠ t

instance (t : Tid) (s : FaultSys) : ∀ e, Decidable (LeftAlone t s e)
  | .fault u _ _ => inferInstanceAs (Decidable (u ≠ t))
  | .go u => inferInstanceAs (Decidable (if u = t then _ else _))
  | .pool _ => inferInstanceAs (Decidable True)
  | .pages u _ _ => inferInstanceAs (Decidable (u ≠ t))

namespace FaultPlace

/-- Rounds, of `n`, that have not mapped or failed yet. -/
def left (n : ℕ) : FaultPlace → ℕ
  | .test _ => n
  | .count _ => n
  | .loop left => left
  | .install left _ => left + 1
  | .grown left => left
  | .undo left _ => left
  | _ => 0

/-- Own statements before the handler returns, if it grows the stack. -/
def todo (n : ℕ) : FaultPlace → ℕ
  | .test _ => 3 * n + 3
  | .count _ => 3 * n + 2
  | .loop left => 3 * left + 1
  | .install left _ => 3 * left + 3
  | .grown left => 3 * left + 2
  | .undo left _ => 3 * left + 2
  | _ => 0

/-- The places of a handler that grows the stack for this `esp`. -/
def Grows (esp : Word) : FaultPlace → Prop
  | .test esp' => esp' = esp
  | .count esp' => esp' = esp
  | .mm _ => False
  | .ended => False
  | _ => True

end FaultPlace

/-- **A handler that began in `v`**, with `n` rounds to do, and what it sees now. -/
structure Handling (v : Vm) (esp : Word) (n : ℕ) (frames : List Word) (place : FaultPlace) (w : Vm) :
    Prop where
  grows : place.Grows esp
  few : place.left n ≤ n
  filled : Filled v frames (n - place.left n) w.pages
  counter : w.stackPage + place.moves.toNat = v.stackPage + frames.length
  tables : w.tables = v.tables

namespace Handling

variable {v w : Vm} {esp : Word} {n : ℕ} {place : FaultPlace} {frames : List Word}

theorem start (v : Vm) (esp : Word) (n : ℕ) : Handling v esp n [] (.test esp) v where
  grows := rfl
  few := Nat.le_refl n
  filled := (Nat.sub_self n).symm ▸ .zero
  counter := rfl
  tables := rfl

theorem done (h : Handling v esp n frames .user w) :
    Filled v frames n w.pages ∧ w.stackPage = v.stackPage + frames.length :=
  ⟨h.filled, h.counter⟩

theorem congr {w' : Vm} (h : Handling v esp n frames place w)
    (hw : w' = { w with free := w'.free }) : Handling v esp n frames place w' := by
  rw [hw]
  exact ⟨h.grows, h.few, h.filled, h.counter, h.tables⟩

theorem unchanged (h : Handling v esp n frames place w) (hleft : place.left n = n)
    (hm : place.moves = false) : w.stackPage = v.stackPage := by
  have hlen := h.filled.few
  have hcounter := h.counter
  rw [hleft, Nat.sub_self] at hlen
  rw [hm] at hcounter
  have hcounter : w.stackPage + 0 = v.stackPage + frames.length := hcounter
  omega

/-- **The round of `install_page`.** -/
theorem installs {left : ℕ} {kpage : Word} (h : Handling v esp n frames (.install left kpage) w)
    (hg : v.stackPage + n < 786432) :
    ∃ place' w' frames', handlerStep w (.install left kpage) = some (place', w') ∧
      Handling v esp n frames' place' w' ∧ place'.todo n = 3 * left + 2 := by
  have hpage : w.stackPage = v.stackPage + frames.length := h.counter
  have hfew : left + 1 ≤ n := h.few
  have hfilled : Filled v frames (n - (left + 1)) w.pages := h.filled
  have hlen := hfilled.few
  have hround : n - left = n - (left + 1) + 1 := by omega
  obtain ⟨huser, hno⟩ := nextPage (g := w.stackPage) (by omega)
  have hinst := w.installPage_user huser kpage true
  rw [hno, hpage] at hinst
  have hcan : (w.pages (slot (v.stackPage + frames.length + 1)) = none ∧
      w.tables (slot (v.stackPage + frames.length + 1)) = true) ↔
      v.CanGrow (v.stackPage + frames.length + 1) := by
    rw [h.tables, hfilled.next (by omega)]
    exact Iff.rfl
  simp only [handlerStep]
  rw [hpage, hinst, Option.map_some]
  by_cases hc : v.CanGrow (v.stackPage + frames.length + 1)
  · rw [if_pos (hcan.mpr hc)]
    refine ⟨.grown left, _, frames ++ [kpage], rfl,
      ⟨trivial, Nat.le_of_succ_le hfew, ?_, ?_, h.tables⟩, rfl⟩
    · show Filled v _ (n - left) _
      rw [hround]
      exact hfilled.grow (by omega) hc kpage
    · show v.stackPage + frames.length + 1 = _
      rw [List.length_append]
      rfl
  · rw [if_neg fun hboth => hc (hcan.mp hboth)]
    refine ⟨.undo left kpage, w, frames, rfl,
      ⟨trivial, Nat.le_of_succ_le hfew, ?_, h.counter, h.tables⟩, rfl⟩
    show Filled v _ (n - left) _
    rw [hround]
    exact hfilled.stuck hc

/-- **One statement** of the handler: it goes through, and the handler comes nearer to its end. -/
theorem step (h : Handling v esp n frames place w) (hgrow : v.stackGrowable esp = true)
    (hn : v.pageAllocs esp = n) (hg : v.stackPage + n < 786432)
    (hask : place.asks = true → w.free ≠ []) (hne : place ≠ .user) :
    ∃ place' w' frames', handlerStep w place = some (place', w') ∧
      Handling v esp n frames' place' w' ∧ place'.todo n < place.todo n := by
  have ⟨hgrows, hfew, hfilled, hcounter, htables⟩ := h
  cases place with
  | user => exact absurd rfl hne
  | test esp' =>
    obtain rfl : esp' = esp := hgrows
    have hw : w.stackGrowable esp' = true := by
      unfold Vm.stackGrowable at hgrow ⊢
      rwa [h.unchanged rfl rfl]
    exact ⟨.count esp', w, frames, congrArg (fun place => some (place, w)) (if_pos hw),
      ⟨rfl, hfew, hfilled, hcounter, htables⟩, Nat.lt_succ_self _⟩
  | count esp' =>
    obtain rfl : esp' = esp := hgrows
    have hw : w.pageAllocs esp' = n := by
      rw [← hn]
      unfold Vm.pageAllocs
      rw [h.unchanged rfl rfl]
    refine ⟨.loop n, w, frames, ?_, ⟨trivial, hfew, hfilled, hcounter, htables⟩, Nat.lt_succ_self _⟩
    simp only [handlerStep, hw]
  | loop left =>
    cases left with
    | zero =>
      exact ⟨.user, w, frames, rfl, ⟨trivial, hfew, hfilled, hcounter, htables⟩, Nat.one_pos⟩
    | succ left =>
      cases hf : w.free with
      | nil => exact absurd hf (hask rfl)
      | cons kpage free =>
        refine ⟨.install left kpage, { w with free := free }, frames, ?_,
          ⟨trivial, hfew, hfilled, hcounter, htables⟩, Nat.lt_succ_self _⟩
        simp only [handlerStep, hf]
  | install left kpage =>
    obtain ⟨place', w', frames', hstep, h', htodo⟩ := h.installs hg
    exact ⟨place', w', frames', hstep, h', htodo.trans_lt (Nat.lt_succ_self _)⟩
  | grown left =>
    exact ⟨.loop left, { w with stackPage := w.stackPage + 1 }, frames, rfl,
      ⟨trivial, hfew, hfilled, hcounter, htables⟩, Nat.lt_succ_self _⟩
  | undo left kpage =>
    exact ⟨.loop left, { w with free := kpage :: w.free }, frames, rfl,
      ⟨trivial, hfew, hfilled, hcounter, htables⟩, Nat.lt_succ_self _⟩
  | mm again => exact hgrows.elim
  | ended => exact hgrows.elim

end Handling

/-- Only `stack_page++` changes the counter. -/
theorem handlerStep_counter {w w' : Vm} {place place' : FaultPlace}
    (h : handlerStep w place = some (place', w')) (hm : place.moves = false) :
    w'.stackPage = w.stackPage := by
  unfold handlerStep at h
  split at h
  case h_5 =>
    obtain ⟨⟨w₁, b⟩, hinst, he⟩ := Option.map_eq_some_iff.mp h
    cases he
    exact (Vm.installPage_keeps hinst).2.2
  case h_6 => cases hm
  case h_4 | h_8 =>
    split at h
    all_goals
      cases h
      rfl
  all_goals
    cases h
    try rfl

theorem faultStep_others {s s' : FaultSys} {t : Tid} {e : FaultEvent} (hs : faultStep s e = some s')
    (hok : LeftAlone t s e) (hne : e ≠ .go t) :
    s'.place t = s.place t ∧ s'.view t = { s.view t with free := (s'.view t).free } := by
  cases e with
  | fault u errorCode esp =>
    have hu : t ≠ u := Ne.symm hok
    obtain ⟨-, hs⟩ := Option.ite_none_right_eq_some.mp hs
    cases hs
    exact ⟨update_of_ne hu .., rfl⟩
  | go u =>
    have hu : u ≠ t := fun he => hne (congrArg _ he)
    have hm : (s.place u).moves = false := by
      have hok : if u = t then _ else (s.place u).moves = false := hok
      rwa [if_neg hu] at hok
    obtain ⟨⟨place, w⟩, hstep, he⟩ := Option.map_eq_some_iff.mp hs
    cases he
    have hcounter : w.stackPage = s.stackPage := handlerStep_counter hstep hm
    refine ⟨update_of_ne hu.symm .., ?_⟩
    unfold FaultSys.view FaultSys.store
    dsimp only
    rw [update_of_ne hu.symm, update_of_ne hu.symm, hcounter]
  | pool free =>
    cases hs
    exact ⟨rfl, rfl⟩
  | pages u pages tables =>
    have hu : t ≠ u := Ne.symm hok
    cases hs
    refine ⟨rfl, ?_⟩
    unfold FaultSys.view
    dsimp only
    rw [update_of_ne hu, update_of_ne hu]

theorem view_store (s : FaultSys) (t : Tid) (place : FaultPlace) (w : Vm) :
    (s.store t place w).view t = w ∧ (s.store t place w).place t = place := by
  unfold FaultSys.view FaultSys.store
  dsimp only
  rw [update_self, update_self, update_self]
  exact ⟨rfl, rfl⟩

theorem rounds_lt {v : Vm} {esp : Word} (hg : v.stackPage ≤ 786432)
    (hgrow : v.stackGrowable esp = true) : v.stackPage + v.pageAllocs esp < 786432 := by
  have hn := Vm.pageAllocs_eq hg hgrow
  obtain ⟨h1, h2⟩ := (Vm.growable_iff hg).mp hgrow
  omega

section Growth

variable {s s' : FaultSys} {t : Tid} {esp : Word}

theorem handling_reach (hp : s.place t = .test esp) (hg : s.stackPage ≤ 786432)
    (hgrow : (s.view t).stackGrowable esp = true) (hr : Reach faultStep (LeftAlone t) s s') :
    ∃ frames, Handling (s.view t) esp ((s.view t).pageAllocs esp) frames (s'.place t) (s'.view t) := by
  refine hr.invariant (I := fun s₁ => ∃ frames, Handling (s.view t) esp _ frames (s₁.place t)
    (s₁.view t)) ?_ fun s₁ e s₂ h₁ hok hs => ?_
  · rw [hp]
    exact ⟨[], .start _ _ _⟩
  · obtain ⟨frames, h₁⟩ := h₁
    by_cases he : e = .go t
    · subst he
      by_cases huser : s₁.place t = .user
      · have hs : (handlerStep (s₁.view t) (s₁.place t)).map _ = some s₂ := hs
        rw [huser] at hs
        cases hs
      · have hask : if t = t then (s₁.place t).asks = true → s₁.free ≠ [] else _ := hok
        rw [if_pos rfl] at hask
        obtain ⟨place', w', frames', hstep, h', -⟩ := h₁.step hgrow rfl (rounds_lt hg hgrow) hask huser
        have hs : (handlerStep (s₁.view t) (s₁.place t)).map _ = some s₂ := hs
        rw [hstep] at hs
        cases hs
        obtain ⟨hview, hplace⟩ := view_store s₁ t place' w'
        refine ⟨frames', ?_⟩
        rw [hview, hplace]
        exact h'
    · obtain ⟨hplace, hview⟩ := faultStep_others hs hok he
      refine ⟨frames, ?_⟩
      rw [hplace]
      exact h₁.congr hview

end Growth

/-- Two processes in user code, with one page of stack each. -/
def twoStacks : FaultSys where
  pages t p := if p = 786431 then some (if t = 0 then 0xc0300000#32 else 0xc0301000#32, true) else none
  tables _ _ := true
  place _ := .user
  free := [0xc0310000#32, 0xc0311000#32, 0xc0312000#32, 0xc0313000#32]
  stackPage := 1

theorem stackOf_one {pages : ℕ → Option (Word × Bool)} (h1 : pages 786431 ≠ none)
    (h2 : pages 786430 = none) : StackOf pages 1 := by
  refine ⟨fun i hi hi' => ?_, fun hm => hm.2.2 ?_⟩
  · obtain rfl : i = 1 := by omega
    refine ⟨Nat.le_refl 1, by omega, ?_⟩
    unfold slot
    exact h1
  · unfold slot
    exact h2

/-- The first process has faulted. -/
def atTest : FaultSys := { twoStacks with place := update twoStacks.place 0 (.test 0xbfffeffe#32) }

/-- **The stack of process 0 does not grow to what `esp` needs**, though there are frames to the end. -/
def Misgrown (before : List FaultEvent) (esp : Word) (after : List FaultEvent) : Prop :=
  ∃ s s', runList faultStep twoStacks before = some s ∧ s.place 0 = .test esp ∧
    StackOf (s.pages 0) 1 ∧ (s.view 0).stackGrowable esp = true ∧
    runList faultStep s after = some s' ∧ s'.place 0 = .user ∧ s'.free ≠ [] ∧
    ¬ GrownExactly 1 esp (s.view 0) (s'.view 0)

/-- A page is missing that is needed, or one has been mapped that is not. -/
theorem misgrown_of {before after : List FaultEvent} {esp : Word}
    (h : ((runList faultStep twoStacks before).bind fun s => (runList faultStep s after).map fun s' =>
      (decide (s.place 0 = .test esp ∧ s.pages 0 786431 ≠ none ∧ s.pages 0 786430 = none ∧
        (s.view 0).stackGrowable esp = true ∧ s'.place 0 = .user ∧ s'.free ≠ [] ∧
        (2 ≤ slotOf esp ∧ s'.pages 0 786430 = none ∨
          slotOf esp = 2 ∧ s.pages 0 786429 = none ∧ s'.pages 0 786429 ≠ none)))) = some true) :
    Misgrown before esp after := by
  obtain ⟨s, hs, h⟩ := Option.bind_eq_some_iff.mp h
  obtain ⟨s', hs', h⟩ := Option.map_eq_some_iff.mp h
  obtain ⟨hplace, h1, h2, hgrow, hback, hfree, hwrong⟩ := of_decide_eq_true h
  refine ⟨s, s', hs, hplace, stackOf_one h1 h2, hgrow, hs', hback, hfree, fun hgrown => ?_⟩
  rcases hwrong with ⟨hslot, hmissing⟩ | ⟨hslot, hbefore, hafter⟩
  · obtain ⟨frame, hmap⟩ := hgrown.mapped 2 (by omega) hslot
    unfold slot at hmap
    cases hmissing.symm.trans hmap
  · refine hgrown.nothingLower 3 (by omega) (by omega) ?_ ?_
    all_goals unfold slot
    · exact hafter
    · exact hbefore

/-- A page fault of `t`, up to the end of its handler, when one page is missing. -/
def growth (t : Tid) (esp : Word) : List FaultEvent :=
  .fault t 6#32 esp :: List.replicate 6 (.go t)

end Pintos
