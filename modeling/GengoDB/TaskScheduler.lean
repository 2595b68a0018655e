/-
The scheduler: workers take tasks from a queue and run them on fibers, which
may stop to wait for a child task. Two counters decide when a task is over:
how often it was handed to a worker, and how often it came back. Every
hand-out is a token that a worker, a fiber that waits or a fiber that can go on
holds until it is returned, so that the counters meet when nobody holds one.
-/
import Mathlib.Algebra.BigOperators.Group.Finset.Basic
import Mathlib.Algebra.Order.BigOperators.Group.Finset

namespace GengoDB.Scheduler

open Function List

/-! ## Workers and tasks -/

/-- A fiber of a task, with the child task whose `awaitChildTask` it is in. -/
structure Fiber (T : Type) where
  task : T
  awaits : Option T
  deriving DecidableEq

/-- Where a worker is in `work`, or in what it calls from there. A fiber is
`fresh` until it yields. -/
inductive Pc (T : Type) where
  | loop
  | resume (f : Fiber T)
  | running (f : Fiber T) (fresh : Bool)
  | yielding (t c : T) (fresh : Bool)
  | yieldFiber (t : T)
  | unYieldFiber (t : T)
  | idle
  | took (t : T)
  | getTask
  | startFiber (t : T)
  | completed (t : T)
  | keep (t : T)
  | returnTask (t : T)
  | returned (t : T) (returnedNum : ℕ)
  | cool (t : T) (returnedNum : ℕ)
  | compare (t : T) (returnedNum : ℕ)
  | finalize (t : T) (returnedNum : ℕ)
  | onFinalize (t : T)
  deriving DecidableEq

/-- The child task for which a fiber is about to yield. -/
def Pc.yieldingFor {T : Type} : Pc T → Option T
  | .yielding _ c _ => some c
  | _ => none

/-- `waitingOnTasks` has the fiber that awaits a task under that task. -/
structure Worker (T : Type) where
  pc : Pc T
  currentTask : Option T
  runnableFibers : List (Fiber T)
  waitingOnTasks : List (Fiber T)

/-- The members of the task wrappers, by task, with the queue and the workers.
A task that is not enqueued yet has the initial ones. `nonCompletedFibers` is
left out, since nothing reads it. `onFinalize` is the worker to which the
callback gives a fiber back, and `runs` counts its calls. -/
structure State (T W : Type) where
  hasWork : T → Bool
  coolingDown : T → Bool
  finalized : T → Bool
  yieldedFibers : T → ℤ
  deployedOnWorkers : T → ℕ
  returnedFromWorkers : T → ℕ
  onFinalize : T → Option W
  runs : T → ℕ
  queue : List T
  workers : W → Worker T

variable {T W : Type}

section

variable [DecidableEq T] [DecidableEq W]

def start : State T W where
  hasWork _ := true
  coolingDown _ := false
  finalized _ := false
  yieldedFibers _ := 0
  deployedOnWorkers _ := 0
  returnedFromWorkers _ := 0
  onFinalize _ := none
  runs _ := 0
  queue := []
  workers _ := ⟨.loop, none, [], []⟩

variable (s : State T W)

namespace State

def setWorker (w : W) (k : Worker T) : State T W :=
  { s with workers := update s.workers w k }

def goto (w : W) (pc : Pc T) : State T W := s.setWorker w { s.workers w with pc := pc }

/-- `dequeueTaskLocked` of tasks that cool down from now on. -/
def coolDown (ts : List T) : State T W :=
  { s with coolingDown := fun t => s.coolingDown t || decide (t ∈ ts), queue := s.queue.filter fun t => t ∉ ts }

def enqueueTask (t : T) (waiter : Option W) : State T W :=
  { s with onFinalize := update s.onFinalize t waiter, queue := s.queue ++ [t] }

/-- Every task that was enqueued before is queued or cools down. -/
def isNew (t : T) : Bool := !s.coolingDown t && t ∉ s.queue

def addYielded (t : T) (n : ℤ) : State T W :=
  { s with yieldedFibers := update s.yieldedFibers t (s.yieldedFibers t + n) }

def addDeployed (t : T) : State T W :=
  { s with deployedOnWorkers := update s.deployedOnWorkers t (s.deployedOnWorkers t + 1) }

def addReturned (t : T) : State T W :=
  { s with returnedFromWorkers := update s.returnedFromWorkers t (s.returnedFromWorkers t + 1) }

/-- The callback is called. -/
def setFinalized (t : T) : State T W :=
  { s with finalized := update s.finalized t true, runs := update s.runs t (s.runs t + 1) }

def exhaust (t : T) : State T W := { s with hasWork := update s.hasWork t false }

/-- The callback of `awaitChildTask` makes the fiber runnable. -/
def giveBack (v : W) (f : Fiber T) : State T W :=
  s.setWorker v { s.workers v with
    runnableFibers := (s.workers v).runnableFibers ++ [f]
    waitingOnTasks := (s.workers v).waitingOnTasks.erase f }

/-- The loop of `getTask`: the tasks it takes from the queue, and the one it
returns. A negative count is a large one as a `size_t`. -/
def getTask (s : State T W) : List T → ℕ → Option T → List T × Option T
  | [], _, minYieldTask => ([], minYieldTask)
  | t :: ts, minYieldCount, minYieldTask =>
    if s.hasWork t = false then
      let r := s.getTask ts minYieldCount minYieldTask
      (t :: r.1, r.2)
    else if s.yieldedFibers t = 0 then ([], some t)
    else if s.yieldedFibers t < 0 ∨ (s.yieldedFibers t).toNat < minYieldCount then
      s.getTask ts (s.yieldedFibers t % 2 ^ 64).toNat (some t)
    else s.getTask ts minYieldCount minYieldTask

/-- What a worker does next if nothing else is said: a fiber runs to its end,
and a fiber can be allocated and is given work. -/
def next (w : W) : Option (State T W) :=
  let k := s.workers w
  match k.pc with
  | .loop => match k.runnableFibers with
    | [] => some (s.goto w .idle)
    | f :: fs => some (s.setWorker w { k with pc := .resume f, runnableFibers := fs })
  | .resume f => some (s.goto w (.running { f with awaits := none } false))
  | .running f fresh => some (s.goto w (if fresh then .completed f.task else .unYieldFiber f.task))
  | .yielding t _ fresh => some (s.goto w (if fresh then .yieldFiber t else .loop))
  | .yieldFiber t => some ((s.addYielded t 1).goto w .loop)
  | .unYieldFiber t => some ((s.addYielded t (-1)).goto w (.returnTask t))
  | .idle => match k.currentTask with
    | none => some (s.goto w .getTask)
    | some t => some (s.setWorker w { k with pc := .took t, currentTask := none })
  | .took t => some (s.goto w (if s.hasWork t then .startFiber t else .returnTask t))
  | .getTask =>
    let r := s.getTask s.queue (2 ^ 64 - 1) none
    match r.2 with
    | none => some ((s.coolDown r.1).goto w .loop)
    | some t => some (((s.coolDown r.1).addDeployed t).goto w (.startFiber t))
  | .startFiber t => some (s.goto w (.running ⟨t, none⟩ true))
  | .completed t => some (s.goto w (if s.hasWork t then .keep t else .returnTask t))
  | .keep t => some (s.setWorker w { k with pc := .loop, currentTask := some t })
  | .returnTask t => some ((s.addReturned t).goto w (.returned t (s.returnedFromWorkers t + 1)))
  | .returned t n => some (s.goto w (if s.hasWork t then .loop else .cool t n))
  | .cool t n => some ((if s.coolingDown t then s else s.coolDown [t]).goto w (.compare t n))
  | .compare t n => some (s.goto w (if s.deployedOnWorkers t = n then .finalize t n else .loop))
  | .finalize t _ => some ((s.setFinalized t).goto w (.onFinalize t))
  | .onFinalize t => match s.onFinalize t with
    | none => some (s.goto w .loop)
    | some v => match (s.workers v).waitingOnTasks.find? fun f => f.awaits = some t with
      | none => none
      | some f =>
        -- The callback waits until the fiber has yielded.
        if (s.workers v).pc.yieldingFor = some t then none else some ((s.giveBack v f).goto w .loop)

end State

/-- What a worker may do instead: its fiber awaits a new child task, it cannot
allocate a fiber, or `allocateWork` fails. -/
inductive Choice (T : Type) where
  | next
  | awaitChildTask (c : T)
  | fail

inductive Action (T W : Type) where
  | work (w : W) (choice : Choice T)
  | enqueueTask (t : T)
  | exhaust (t : T)

/-- One step of a worker, of a thread that enqueues a task, or of a task that
runs out of work. -/
def step : Action T W → Option (State T W)
  | .work w .next => s.next w
  | .work w (.awaitChildTask c) => match (s.workers w).pc with
    | .running f fresh =>
      if s.isNew c then some ((s.enqueueTask c (some w)).setWorker w { s.workers w with
        pc := .yielding f.task c fresh
        waitingOnTasks := { f with awaits := some c } :: (s.workers w).waitingOnTasks })
      else none
    | _ => none
  | .work w .fail => match (s.workers w).pc with
    | .idle => some (s.goto w .loop)
    | .startFiber t => some ((s.exhaust t).goto w (.returnTask t))
    | _ => none
  | .enqueueTask t => if s.isNew t then some (s.enqueueTask t none) else none
  | .exhaust t => some (s.exhaust t)

def run (s : State T W) : List (Action T W) → Option (State T W)
  | [] => some s
  | a :: as => (step s a).bind (run · as)

end

/-! ## Tokens -/

/-- The task whose hand-out the worker itself holds. -/
def Pc.holds : Pc T → Option T
  | .resume f | .running f _ => some f.task
  | .unYieldFiber t | .took t | .startFiber t | .completed t | .keep t | .returnTask t => some t
  | _ => none

/-- The number under which a task came back, until it has been compared. -/
def Pc.number : Pc T → Option (T × ℕ)
  | .returned t n | .cool t n | .compare t n | .finalize t n => some (t, n)
  | _ => none

/-- The fibers of a worker that have been started and are not at their end. -/
def Worker.fibers (k : Worker T) : List (Fiber T) :=
  (match k.pc with
    | .resume f | .running f _ => [f]
    | _ => []) ++ (k.runnableFibers ++ k.waitingOnTasks)

/-! ## The invariant -/

variable {s s' : State T W} {w : W} {k : Worker T} {pc old : Pc T} {t : T} {n : ℕ}

/-- The child a fiber was waiting for is finalized. -/
def Fiber.Ready (s : State T W) (f : Fiber T) : Prop := ∀ c, f.awaits = some c → s.finalized c = true

def Pc.Ok (s : State T W) : Pc T → Prop
  | .resume f => f.Ready s
  | .returned t n => n ≤ s.returnedFromWorkers t
  | .cool t n => n ≤ s.returnedFromWorkers t ∧ s.hasWork t = false
  | .compare t n => n ≤ s.returnedFromWorkers t ∧ s.hasWork t = false ∧ s.coolingDown t = true
  | .finalize t n =>
    n ≤ s.returnedFromWorkers t ∧ s.hasWork t = false ∧ s.coolingDown t = true ∧ s.deployedOnWorkers t = n
  | .onFinalize t => s.finalized t = true
  | _ => True

/-- What holds of a task whose callback was called: nobody can find it complete
once more. -/
structure Ran (s : State T W) (t : T) : Prop where
  runs : s.runs t = 1
  hasWork : s.hasWork t = false
  coolingDown : s.coolingDown t = true
  returned : s.deployedOnWorkers t ≤ s.returnedFromWorkers t
  number : ∀ w, (s.workers w).pc.number ≠ some (t, s.deployedOnWorkers t)

def Queued (s : State T W) : Prop := ∀ t ∈ s.queue, s.coolingDown t = false

/-- What every step does to the members of the wrappers. -/
structure Grows (s s' : State T W) : Prop where
  hasWork : ∀ t, s.hasWork t = false → s'.hasWork t = false := by exact fun _ h => h
  cooling : ∀ t, s.coolingDown t = true →
    s'.coolingDown t = true ∧ s'.deployedOnWorkers t = s.deployedOnWorkers t := by exact fun _ h => ⟨h, rfl⟩
  finalized : ∀ t, s.finalized t = true → s'.finalized t = true := by exact fun _ h => h
  returned : ∀ t, s.returnedFromWorkers t ≤ s'.returnedFromWorkers t := by exact fun _ => le_rfl

theorem Pc.Ok.mono (h : pc.Ok s) (hg : Grows s s') : pc.Ok s' := by
  cases pc with
  | resume f => exact fun c hc => hg.finalized c (h c hc)
  | returned t n => exact h.trans (hg.returned t)
  | cool t n => exact ⟨h.1.trans (hg.returned t), hg.hasWork t h.2⟩
  | compare t n => exact ⟨h.1.trans (hg.returned t), hg.hasWork t h.2.1, (hg.cooling t h.2.2).1⟩
  | finalize t n =>
    obtain ⟨hcool, hdeployed⟩ := hg.cooling t h.2.2.1
    exact ⟨h.1.trans (hg.returned t), hg.hasWork t h.2.1, hcool, hdeployed.trans h.2.2.2⟩
  | onFinalize t => exact hg.finalized t h
  | _ => trivial

theorem Pc.Ok.le_returned {x : T × ℕ} (h : pc.Ok s) (hx : pc.number = some x) : x.2 ≤ s.returnedFromWorkers x.1 := by
  cases pc <;> cases hx
  · exact h
  all_goals exact h.1

/-- The tasks taken from the queue have no work, the one returned has. -/
theorem State.getTask_spec (s : State T W) (queue : List T) (m : ℕ) (best : Option T) :
    (∀ t ∈ (s.getTask queue m best).1, s.hasWork t = false) ∧
      ∀ t, (s.getTask queue m best).2 = some t → best = some t ∨ t ∈ queue ∧ s.hasWork t := by
  fun_induction State.getTask s queue m best <;> grind

variable [DecidableEq T]

def Worker.held (k : Worker T) (t : T) : ℕ :=
  (if k.pc.holds = some t then 1 else 0) + (if k.currentTask = some t then 1 else 0) +
    (k.runnableFibers ++ k.waitingOnTasks).countP fun f => f.task = t

theorem Worker.held_pos {k : Worker T} {f : Fiber T} (hf : f ∈ k.fibers) : 0 < k.held f.task := by
  rcases mem_append.1 hf with h | h
  · have hpc : k.pc.holds = some f.task := by
      cases hpc : k.pc <;> simp_all [Pc.holds]
    rw [held, if_pos hpc]
    omega
  · have hcount : 0 < (k.runnableFibers ++ k.waitingOnTasks).countP fun g => g.task = f.task :=
      countP_pos_iff.2 ⟨f, h, by simp⟩
    rw [held]
    omega

theorem Worker.held_goto (hholds : ∀ t, pc.holds = some t → k.pc.holds = some t) (t : T) :
    ({ k with pc := pc } : Worker T).held t ≤ k.held t := by
  have hle : (if pc.holds = some t then 1 else 0) ≤ if k.pc.holds = some t then 1 else 0 := by
    split
    · next h => rw [if_pos (hholds t h)]
    · exact Nat.zero_le _
  simp only [held]
  omega

variable [Fintype W]

structure Inv (s : State T W) : Prop where
  tokens : ∀ t, s.returnedFromWorkers t + ∑ w, (s.workers w).held t ≤ s.deployedOnWorkers t
  queued : Queued s
  pc : ∀ w, (s.workers w).pc.Ok s
  ready : ∀ w, ∀ f ∈ (s.workers w).runnableFibers, f.Ready s
  number : ∀ v w x, (s.workers v).pc.number = some x → (s.workers w).pc.number = some x → v = w
  ran : ∀ t, s.runs t ≠ 0 → Ran s t

theorem inv_start : Inv (start : State T W) where
  tokens t := by simp [start, Worker.held, Pc.holds]
  queued := nofun
  pc _ := trivial
  ready _ := nofun
  number _ _ := nofun
  ran _ h := absurd rfl h

/-- A step of no worker. -/
theorem Inv.grow (h : Inv s) (hg : Grows s s') (hworkers : s'.workers = s.workers)
    (hcounts : s'.deployedOnWorkers = s.deployedOnWorkers ∧ s'.returnedFromWorkers = s.returnedFromWorkers ∧
      s'.runs = s.runs) (hqueued : Queued s') : Inv s' := by
  obtain ⟨hdeployed, hreturned, hruns⟩ := hcounts
  refine ⟨fun t => ?_, hqueued, fun w => ?_, fun w f hf c hc => ?_, ?_, fun t ht => ?_⟩
  · rw [hworkers, hdeployed, hreturned]
    exact h.tokens t
  · rw [hworkers]
    exact (h.pc w).mono hg
  · rw [hworkers] at hf
    exact hg.finalized c (h.ready w f hf c hc)
  · rw [hworkers]
    exact h.number
  · rw [hruns] at ht
    have hr := h.ran t ht
    refine ⟨hruns ▸ hr.runs, hg.hasWork t hr.hasWork, (hg.cooling t hr.coolingDown).1, ?_, ?_⟩
    · rw [hdeployed, hreturned]
      exact hr.returned
    · rw [hworkers, hdeployed]
      exact hr.number

/-! ## Steps -/

theorem Inv.coolDown (h : Inv s) (ts : List T) : Inv (s.coolDown ts) := by
  refine h.grow { cooling := fun t ht => ⟨by simp [State.coolDown, ht], rfl⟩ } rfl ⟨rfl, rfl, rfl⟩ fun t ht => ?_
  obtain ⟨ht, hnot⟩ := mem_filter.1 ht
  simpa [State.coolDown, h.queued t ht] using hnot

theorem Inv.enqueueTask (h : Inv s) (ht : s.isNew t) (waiter : Option W) : Inv (s.enqueueTask t waiter) := by
  simp only [State.isNew, Bool.and_eq_true, Bool.not_eq_true', decide_eq_true_eq] at ht
  exact h.grow {} rfl ⟨rfl, rfl, rfl⟩ (forall_mem_append.2 ⟨h.queued, forall_mem_singleton.2 ht.1⟩)

theorem update_eq_of_eq {f : T → Bool} {b : Bool} {t u : T} (h : f u = b) : update f t b u = b := by
  rw [update_apply, h, ite_self]

theorem Inv.exhaust (h : Inv s) (t : T) : Inv (s.exhaust t) :=
  h.grow { hasWork := fun _ => update_eq_of_eq } rfl ⟨rfl, rfl, rfl⟩ h.queued

theorem Inv.addYielded (h : Inv s) (t : T) (n : ℤ) : Inv (s.addYielded t n) := h.grow {} rfl ⟨rfl, rfl, rfl⟩ h.queued

/-- Only the last one to return a task comes here. -/
theorem Inv.runs_eq_zero (h : Inv s) (hpc : (s.workers w).pc = .finalize t n) : s.runs t = 0 := by
  by_contra hne
  have hok := h.pc w
  rw [hpc] at hok
  exact (h.ran t hne).number w (by rw [hpc, hok.2.2.2]; rfl)

variable [DecidableEq W]

section

variable (h : Inv s)
include h

/-- **One step** keeps the invariant, if the worker gains no token that was
not handed out, and returns none twice. -/
theorem Inv.move (hg : Grows s s') (hworkers : s'.workers = update s.workers w k)
    (htokens : ∀ t, s.deployedOnWorkers t + s'.returnedFromWorkers t + k.held t ≤
      s'.deployedOnWorkers t + s.returnedFromWorkers t + (s.workers w).held t) (hqueued : Queued s') (hpc : k.pc.Ok s')
    (hready : ∀ f ∈ k.runnableFibers, f ∈ (s.workers w).runnableFibers ∨ f.Ready s')
    (hnumber : ∀ x, k.pc.number = some x → (s.workers w).pc.number = some x ∨ s.returnedFromWorkers x.1 < x.2)
    (hran : ∀ t, s'.runs t = s.runs t ∨ Ran s' t) : Inv s' := by
  have hat v : s'.workers v = if v = w then k else s.workers v := by rw [hworkers, update_apply]
  -- Numbers in use were given out, so one that is new is larger.
  have hle v t n : (s.workers v).pc.number = some (t, n) → n ≤ s.returnedFromWorkers t := (h.pc v).le_returned
  refine ⟨fun t => ?_, hqueued, fun v => ?_, fun v f hf => ?_, fun u v x hu hv => ?_, fun t ht => ?_⟩
  · have hrest : ∑ v ∈ Finset.univ.erase w, (s'.workers v).held t = ∑ v ∈ Finset.univ.erase w, (s.workers v).held t :=
      Finset.sum_congr rfl fun v hv => by rw [hat, if_neg (Finset.ne_of_mem_erase hv)]
    have hold := h.tokens t
    have hnew := htokens t
    rw [← Finset.add_sum_erase _ _ (Finset.mem_univ w)] at hold ⊢
    rw [hat, if_pos rfl]
    omega
  · rw [hat]
    split
    · exact hpc
    · exact (h.pc v).mono hg
  · have hold (hf : f ∈ (s.workers v).runnableFibers) : f.Ready s' := fun c hc => hg.finalized c (h.ready v f hf c hc)
    grind
  · have hdistinct := h.number
    grind
  · rcases hran t with heq | hran
    · obtain ⟨hruns, hwork, hcool, hreturned, hnone⟩ := h.ran t (heq ▸ ht)
      obtain ⟨hcool', hdeployed⟩ := hg.cooling t hcool
      refine ⟨heq.trans hruns, hg.hasWork t hwork, hcool', hdeployed ▸ hreturned.trans (hg.returned t), fun v => ?_⟩
      grind
    · exact hran

theorem Inv.setWorker (hheld : ∀ t, k.held t ≤ (s.workers w).held t) (hpc : k.pc.Ok s)
    (hready : ∀ f ∈ k.runnableFibers, f ∈ (s.workers w).runnableFibers ∨ f.Ready s)
    (hnumber : ∀ x, k.pc.number = some x → (s.workers w).pc.number = some x) : Inv (s.setWorker w k) :=
  h.move {} rfl (fun t => Nat.add_le_add_left (hheld t) _) h.queued hpc hready (fun x hx => .inl (hnumber x hx))
    fun _ => .inl rfl

theorem Inv.goto (hold : (s.workers w).pc = old) (hholds : ∀ t, pc.holds = some t → old.holds = some t)
    (hpc : pc.Ok s) (hnumber : ∀ x, pc.number = some x → old.number = some x) : Inv (s.goto w pc) := by
  subst hold
  exact h.setWorker (Worker.held_goto hholds) hpc (fun _ => .inl) hnumber

/-- A task that is handed out is in the queue. -/
theorem Inv.getTask (hpc : (s.workers w).pc = .getTask) (ht : s.coolingDown t = false) :
    Inv ((s.addDeployed t).goto w (.startFiber t)) := by
  refine h.move { cooling := fun u hu => ⟨hu, update_of_ne (by grind) ..⟩ } rfl (fun u => ?_) h.queued trivial
    (fun _ => .inl) nofun fun _ => .inl rfl
  simp only [State.goto, State.setWorker, State.addDeployed, Worker.held, Pc.holds, hpc, update_apply]
  grind

theorem Inv.returnTask (hpc : (s.workers w).pc = .returnTask t) :
    Inv ((s.addReturned t).goto w (.returned t (s.returnedFromWorkers t + 1))) := by
  refine h.move { returned := fun u => ?_ } rfl (fun u => ?_) h.queued ?_ (fun _ => .inl) (fun x hx => .inr ?_)
    fun _ => .inl rfl
  · simp only [State.goto, State.setWorker, State.addReturned, update_apply]
    grind
  · simp only [State.goto, State.setWorker, State.addReturned, Worker.held, Pc.holds, hpc, update_apply]
    grind
  · exact (update_self t _ s.returnedFromWorkers).ge
  · cases hx
    exact Nat.lt_succ_self _

theorem Inv.finalize (hpc : (s.workers w).pc = .finalize t n) : Inv ((s.setFinalized t).goto w (.onFinalize t)) := by
  obtain ⟨hreturned, hwork, hcool, rfl⟩ : (Pc.finalize t n).Ok s := hpc ▸ h.pc w
  have hheld u : { s.workers w with pc := .onFinalize t }.held u ≤ (s.workers w).held u := Worker.held_goto nofun u
  refine h.move { finalized := fun _ => update_eq_of_eq } rfl (fun u => Nat.add_le_add_left (hheld u) _) h.queued
    (update_self ..) (fun _ => .inl) nofun fun u => ?_
  by_cases hut : u = t
  · subst hut
    refine .inr ⟨?_, hwork, hcool, hreturned, fun v hv => ?_⟩
    · simp [State.goto, State.setWorker, State.setFinalized, h.runs_eq_zero hpc]
    · by_cases hvw : v = w
      · subst hvw
        simp [State.goto, State.setWorker, Pc.number] at hv
      · simp only [State.goto, State.setWorker, update_of_ne hvw] at hv
        exact hvw (h.number v w _ hv (by rw [hpc]; rfl))
  · exact .inl (update_of_ne hut ..)

theorem Inv.giveBack {f : Fiber T} {v : W} (hf : f ∈ (s.workers v).waitingOnTasks) (hready : f.Ready s) :
    Inv (s.giveBack v f) := by
  refine h.setWorker (fun t => ?_) (h.pc v) (fun g hg => ?_) fun _ => id
  · have hperm : ((s.workers v).runnableFibers ++ [f] ++ (s.workers v).waitingOnTasks.erase f).Perm
        ((s.workers v).runnableFibers ++ (s.workers v).waitingOnTasks) := by
      rw [append_assoc]
      exact (perm_cons_erase hf).symm.append_left _
    simp only [Worker.held, hperm.countP_eq, le_refl]
  · refine (mem_append.1 hg).imp_right fun hg => ?_
    rw [mem_singleton.1 hg]
    exact hready

theorem Inv.next (hs : s.next w = some s') : Inv s' := by
  have hok := h.pc w
  cases hpc : (s.workers w).pc <;> simp only [State.next, hpc] at hs <;> rw [hpc] at hok
  case loop =>
    cases hrun : (s.workers w).runnableFibers with
    | nil =>
      simp only [hrun, Option.some.injEq] at hs
      subst hs
      exact h.goto hpc nofun trivial nofun
    | cons f fs =>
      simp only [hrun, Option.some.injEq] at hs
      subst hs
      refine h.setWorker (fun t => ?_) (h.ready w f (by rw [hrun]; exact .head _)) (fun g hg => .inl ?_) nofun
      · simp only [Worker.held, Pc.holds, hrun, cons_append, countP_cons]
        simp
        omega
      · rw [hrun]
        exact .tail _ hg
  case idle =>
    cases hcur : (s.workers w).currentTask with
    | none =>
      simp only [hcur, Option.some.injEq] at hs
      subst hs
      exact h.goto hpc nofun trivial nofun
    | some t =>
      simp only [hcur, Option.some.injEq] at hs
      subst hs
      refine h.setWorker (fun u => ?_) trivial (fun _ => .inl) nofun
      simp [Worker.held, Pc.holds, hcur]
  case getTask =>
    have hspec := s.getTask_spec s.queue (2 ^ 64 - 1) none
    generalize s.getTask s.queue (2 ^ 64 - 1) none = r at hs hspec
    obtain ⟨ts, _ | t⟩ := r <;> cases hs
    · exact (h.coolDown ts).goto hpc nofun trivial nofun
    · refine (h.coolDown ts).getTask hpc ?_
      obtain ⟨ht, hwork⟩ := (hspec.2 t rfl).resolve_left nofun
      have hnot : t ∉ ts := fun hmem => by rw [hspec.1 t hmem] at hwork; cases hwork
      simp [State.coolDown, h.queued t ht, hnot]
  case onFinalize t =>
    split at hs
    · cases hs
      exact h.goto hpc nofun trivial nofun
    · split at hs
      · cases hs
      · next f hfind =>
        split at hs <;> cases hs
        have hawaits : f.awaits = some t := by simpa using find?_some hfind
        have hready : f.Ready s := fun c hc => by rw [hawaits] at hc; cases hc; exact hok
        exact (h.giveBack (mem_of_find?_eq_some hfind) hready).goto rfl nofun trivial nofun
  all_goals cases hs
  case returnTask t => exact h.returnTask hpc
  case finalize t n => exact h.finalize hpc
  case yieldFiber t => exact (h.addYielded t _).goto hpc nofun trivial nofun
  case unYieldFiber t => exact (h.addYielded t _).goto hpc (fun _ => id) trivial nofun
  case keep t =>
    refine h.setWorker (fun u => ?_) trivial (fun _ => .inl) nofun
    simp [Worker.held, Pc.holds, hpc]
  case returned t n =>
    split
    · exact h.goto hpc nofun trivial nofun
    · next hwork => exact h.goto hpc nofun ⟨hok, by simpa using hwork⟩ fun _ => id
  case cool t n =>
    split
    · next hcool => exact h.goto hpc nofun ⟨hok.1, hok.2, hcool⟩ fun _ => id
    · exact (h.coolDown [t]).goto hpc nofun ⟨hok.1, hok.2, by simp [State.coolDown]⟩ fun _ => id
  case compare t n =>
    split
    · next hn => exact h.goto hpc nofun ⟨hok.1, hok.2.1, hok.2.2, hn⟩ fun _ => id
    · exact h.goto hpc nofun trivial nofun
  case yielding t c fresh => split <;> exact h.goto hpc nofun trivial nofun
  case resume | startFiber => exact h.goto hpc (fun _ => id) trivial nofun
  all_goals split <;> exact h.goto hpc (fun _ => id) trivial nofun

theorem Inv.step {a : Action T W} (hs : step s a = some s') : Inv s' := by
  cases a with
  | work w choice =>
    cases choice with
    | next => exact h.next hs
    | awaitChildTask c =>
      simp only [Scheduler.step] at hs
      split at hs
      · next f fresh hpc =>
        split at hs <;> cases hs
        next hnew =>
        refine (h.enqueueTask hnew (some w)).setWorker (fun t => ?_) trivial (fun _ => .inl) nofun
        -- The fiber takes its token along.
        change _ ≤ (s.workers w).held t
        simp only [Worker.held, Pc.holds, hpc, countP_append, countP_cons]
        simp
        omega
      · cases hs
    | fail =>
      simp only [Scheduler.step] at hs
      split at hs <;> cases hs
      · next hpc => exact h.goto hpc nofun trivial nofun
      · next t hpc => exact (h.exhaust t).goto hpc (fun _ => id) trivial nofun
  | enqueueTask t =>
    simp only [Scheduler.step] at hs
    split at hs <;> cases hs
    next hnew => exact h.enqueueTask hnew none
  | exhaust t =>
    cases hs
    exact h.exhaust t

end

theorem Inv.run : ∀ {as : List (Action T W)} {s : State T W}, Inv s → run s as = some s' → Inv s'
  | [], _, h, hs => by
    cases hs
    exact h
  | a :: as, s, h, hs => by
    obtain ⟨m, hm, hs⟩ := Option.bind_eq_some_iff.1 hs
    exact Inv.run (h.step hm) hs

/-- **Finalization**, in every run of any number of workers. The callback of a
task is called at most once. A worker that is about to call it finds that it was
not called, that the task has no work left and that none of its fibers is
running, waiting or runnable. A fiber goes on after the child it awaits was
finalized. -/
theorem finalized_once {as : List (Action T W)} (h : run start as = some s) : (∀ t, s.runs t ≤ 1) ∧
    (∀ w t n, (s.workers w).pc = .finalize t n →
      s.runs t = 0 ∧ s.hasWork t = false ∧ ∀ v, ∀ f ∈ (s.workers v).fibers, f.task ≠ t) ∧
    ∀ w f c, (s.workers w).pc = .resume f → f.awaits = some c → s.finalized c = true := by
  have hinv := inv_start.run h
  refine ⟨fun t => ?_, fun w t n hpc => ⟨hinv.runs_eq_zero hpc, ?_⟩, fun w f c hpc hc => ?_⟩
  · by_cases ht : s.runs t = 0
    · omega
    · exact (hinv.ran t ht).runs.le
  · obtain ⟨hreturned, hwork, -, rfl⟩ : (Pc.finalize t n).Ok s := hpc ▸ hinv.pc w
    refine ⟨hwork, fun v f hf hft => ?_⟩
    have hpos : 0 < (s.workers v).held t := hft ▸ Worker.held_pos hf
    have hle := Finset.single_le_sum (f := fun v => (s.workers v).held t) (fun _ _ => Nat.zero_le _) (Finset.mem_univ v)
    have htokens := hinv.tokens t
    omega
  · have hok : (Pc.resume f).Ok s := hpc ▸ hinv.pc w
    exact hok c hc

/-- One worker: the fiber of a task awaits a child task, which comes back. -/
def childRun : List (Action ℕ Unit) :=
  [.enqueueTask 0] ++ List.replicate 4 (.work () .next) ++ [.work () (.awaitChildTask 1), .exhaust 0] ++
    List.replicate 6 (.work () .next) ++ [.exhaust 1] ++ List.replicate 6 (.work () .next)

theorem finalized_once_child : ∃ s, run start childRun = some s ∧ (s.workers ()).pc = .finalize 1 1 ∧
    (s.workers ()).fibers = [⟨0, some 1⟩] ∧ s.runs 1 = 0 ∧ s.hasWork 1 = false ∧
    ∀ v, ∀ f ∈ (s.workers v).fibers, f.task ≠ 1 := by
  have hrun : ∃ s, run start childRun = some s ∧ (s.workers ()).pc = .finalize 1 1 ∧
    (s.workers ()).fibers = [⟨0, some 1⟩] := ⟨_, rfl, rfl, rfl⟩
  obtain ⟨s, hrun, hpc, hfibers⟩ := hrun
  exact ⟨s, hrun, hpc, hfibers, (finalized_once hrun).2.1 () 1 1 hpc⟩

/-- **After finalization**, in every run: a task whose callback was called has
no work and is not in the queue, no worker is to return it or keeps it as its
current task, and it has no fiber that is running, waiting or runnable. -/
theorem finalized_released {as : List (Action T W)} (h : run start as = some s) (ht : s.runs t ≠ 0) :
    s.hasWork t = false ∧ t ∉ s.queue ∧ ∀ w, (s.workers w).pc.holds ≠ some t ∧
      (s.workers w).currentTask ≠ some t ∧ ∀ f ∈ (s.workers w).fibers, f.task ≠ t := by
  have hinv := inv_start.run h
  obtain ⟨-, hwork, hcool, hreturned, -⟩ := hinv.ran t ht
  refine ⟨hwork, fun hqueue => by simp [hinv.queued t hqueue] at hcool, fun w => ?_⟩
  -- As many hand-outs came back as there were.
  have htokens := hinv.tokens t
  have hle := Finset.single_le_sum (f := fun v => (s.workers v).held t) (fun _ _ => Nat.zero_le _) (Finset.mem_univ w)
  have hheld : (s.workers w).held t = 0 := by omega
  refine ⟨fun hpc => ?_, fun hcur => ?_, fun f hf hft => ?_⟩
  · simp [Worker.held, hpc] at hheld
  · simp [Worker.held, hcur] at hheld
  · have hpos := Worker.held_pos hf
    rw [hft] at hpos
    omega

theorem finalized_released_child : ∃ s, run start (childRun ++ [.work () .next]) = some s ∧ s.runs 1 = 1 ∧
    s.hasWork 1 = false ∧ 1 ∉ s.queue := by
  have hrun : ∃ s, run start (childRun ++ [.work () .next]) = some s ∧ s.runs 1 = 1 := ⟨_, rfl, rfl⟩
  obtain ⟨s, hrun, hruns⟩ := hrun
  have h := finalized_released hrun (t := 1) (by omega)
  exact ⟨s, hrun, hruns, h.1, h.2.1⟩

end GengoDB.Scheduler
