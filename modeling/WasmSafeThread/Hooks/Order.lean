import WasmSafeThread.Hooks.Basic

/-!
# The order of the spawn hooks

Every run of threads that register, replace and remove hooks, also from inside hooks and destructors,
leaves a log of the changes in the order in which the guard was had.  The registry is at every instant
what the log says (`OrderedMap.Follows`): the names are distinct, each has the hook that was registered
last, and they come in the order in which they came in.  A thread that runs the hooks runs those of the
log as it was when the thread cloned them.

* `Record` : the log, what each removal was to find, and what each thread's run has taken and called.
* `InOrder` : the invariant.
* `in_order` : it holds in every run, and what one operation does to the list.
-/

namespace WasmSafeThread

namespace Hooks

open OrderedMap (Change Follows latest keys)

variable {ι N : Type*}

/-- What has happened in a run. -/
structure Record (ι N : Type*) where
  /-- The changes of the registry, the latest first. -/
  log : List (Change N ℕ)
  /-- Whether the name was registered when the thread's last removal looked for it. -/
  present : ι → Bool
  /-- The log when the thread cloned the hooks. -/
  snap : ι → Option (List (Change N ℕ))
  /-- The hooks that the thread has called in its run. -/
  ran : ι → List ℕ

/-- Nothing has happened. -/
def Record.init : Record ι N := ⟨[], fun _ => false, fun _ => none, fun _ => []⟩

/-- The change that the operation makes. -/
def Op.change : Op N → Change N ℕ
  | .register n k => .put n k
  | .remove n => .remove n
  | .clear => .clear

namespace Record

variable [DecidableEq ι]

/-- Thread `i` has changed the registry. -/
def change [DecidableEq N] (h : Record ι N) (i : ι) (op : Op N) : Record ι N :=
  { h with
    log := op.change :: h.log
    present := match op with
      | .remove n => Function.update h.present i (latest h.log n).isSome
      | _ => h.present }

/-- Thread `i` has cloned the hooks. -/
def clone (h : Record ι N) (i : ι) : Record ι N :=
  { h with snap := Function.update h.snap i (some h.log) }

/-- Thread `i` calls hook `k`. -/
def call (h : Record ι N) (i : ι) (k : ℕ) : Record ι N :=
  { h with ran := Function.update h.ran i (h.ran i ++ [k]) }

end Record

variable [DecidableEq ι] [DecidableEq N]

/-- What a step adds to the record. -/
def note (c : Config ι (Shared ι N) (Local ι N)) :
    Label ι (Act ι N) Empty → Record ι N → Record ι N
  | .agent i .step, h =>
    match (c.loc i).user, (c.loc i).calls, (c.loc i).phase with
    | false, .body op :: _, _ => h.change i op
    | false, [], .snapshot => h.clone i
    | false, [], .hooks (k :: _) => h.call i k
    | _, _, _ => h
  | _, h => h

/-- The run of thread `i` took these hooks. -/
def Taken (h : Record ι N) (i : ι) (taken : List (N × ℕ)) : Prop :=
  ∃ log, h.snap i = some log ∧ Follows log taken

/-- Thread `i` has taken no hooks. -/
def NoneTaken (h : Record ι N) (i : ι) : Prop := h.snap i = none ∧ h.ran i = []

/-- How far the run of thread `i` is: it calls the hooks that it has taken, each once and in order, and
has called them all when it is over.  A run in which a hook panics stops there. -/
def RunsInOrder (h : Record ι N) (i : ι) : Phase → Prop
  | .unborn | .run | .snapshot => NoneTaken h i
  | .cloned todo | .hooks todo | .called _ todo =>
    ∃ taken, Taken h i taken ∧ h.ran i ++ todo = taken.map Prod.snd
  | .unwind _ => ∃ taken, Taken h i taken ∧ h.ran i <+: taken.map Prod.snd
  | .main => NoneTaken h i ∨ ∃ taken, Taken h i taken ∧ h.ran i = taken.map Prod.snd
  | .ended => NoneTaken h i ∨ ∃ taken, Taken h i taken ∧ h.ran i <+: taken.map Prod.snd

/-- The registry and the runs are as the log says. -/
structure InOrder (h : Record ι N) (c : Config ι (Shared ι N) (Local ι N)) : Prop where
  /-- The names are distinct, with their latest hooks, in the order in which they came in. -/
  follows : Follows h.log c.shared.hooks
  /-- `remove_spawn_hook` returns whether the name was registered. -/
  answers : ∀ i b, (c.loc i).result = some b → b = h.present i
  /-- A run calls the hooks that were registered when it cloned them. -/
  runs : ∀ i, RunsInOrder h i (c.loc i).phase

/-- What an operation does to the list: a name that is registered again keeps its position, and a
removal leaves the other entries as they are. -/
def Op.Effect (hooks hooks' : List (N × ℕ)) : Op N → Prop
  | .register n _ => keys hooks' = if n ∈ keys hooks then keys hooks else keys hooks ++ [n]
  | .remove n => hooks' = hooks.filter fun e => e.1 ≠ n
  | .clear => hooks' = []

variable {i : ι} {a : Act ι N} {s s₁ : Shared ι N} {l l₁ : Local ι N}
  {c : Config ι (Shared ι N) (Local ι N)} {h : Record ι N}

theorem op_effect {hooks : List (N × ℕ)} (hd : (keys hooks).Nodup) (op : Op N) :
    op.Effect hooks (op.hooks hooks) := by
  cases op with
  | register n k => exact OrderedMap.keys_put
  | remove n => exact OrderedMap.remove_eq_filter hd
  | clear => rfl

theorem op_hooks {hooks : List (N × ℕ)} (op : Op N) :
    op.hooks hooks = op.change.apply hooks := by
  cases op <;> rfl

/-! ### The calls of one thread -/

/-- The call is an operation that drops `Arc`s. -/
def Frame.dropping : Frame ι N → Bool
  | .drops _ _ => true
  | _ => false

/-- User code runs on top of drops only, and an operation that is on its way has no result yet. -/
structure Nested (l : Local ι N) : Prop where
  below : ∀ f ∈ l.calls.tail, f.dropping = true
  user : l.user = true → ∀ f ∈ l.calls, f.dropping = true
  fresh : ∀ op, l.calls.head? = some (.lock op) ∨ l.calls.head? = some (.body op) → l.result = none

omit [DecidableEq ι] [DecidableEq N] in
theorem Nested.of_dropping {l : Local ι N} (h : ∀ f ∈ l.calls, f.dropping = true) : Nested l := by
  refine ⟨fun f hf => h f (List.mem_of_mem_tail hf), fun _ => h, fun op hop => ?_⟩
  rcases hop with hop | hop <;> have := h _ (List.mem_of_mem_head? hop) <;> cases this

theorem Nested.step (hn : Nested l) (hm : Move i a s l s₁ l₁) : Nested l₁ := by
  -- without a call there are only drops, and so it is below the latest call
  have hnil : l.calls = [] → ∀ f ∈ l.calls, f.dropping = true := fun hl f hf => by
    rw [hl] at hf
    cases hf
  have htail : ∀ {f rest}, l.calls = f :: rest → ∀ f ∈ rest, f.dropping = true := fun hl f hf =>
    hn.below f (by rw [hl]; exact hf)
  cases hm with
  | start | spawned => exact .of_dropping fun f hf => nomatch hf
  | call hu hc =>
    exact ⟨hn.user hu, fun h => (nomatch h), fun _ _ => rfl⟩
  | join hu =>
    exact ⟨hn.user hu, fun h => (nomatch h), fun op hop => by rcases hop with hop | hop <;> cases hop⟩
  | ret hu => exact .of_dropping (hn.user hu)
  | panicked hu hl | drop hu hl =>
    exact .of_dropping (List.forall_mem_cons.2 ⟨rfl, htail hl⟩)
  | body hu hl => exact .of_dropping (List.forall_mem_cons.2 ⟨rfl, htail hl⟩)
  | lock hu hl hlock =>
    refine ⟨htail hl, fun h => ?_, fun op _ => ?_⟩
    · rw [show l.user = true from h] at hu
      cases hu
    · exact hn.fresh _ (.inl (by rw [hl]; rfl))
  | unlock hu hl | joined hu hl hj => exact .of_dropping (htail hl)
  | panic hu hl hp | died hu hl hp | run hu hl hp hlock | snapshot hu hl hp | cloned hu hl hp
  | hook hu hl hp | called hu hl hp | main hu hl hp | unwind hu hl hp | finish hu hl hp =>
    exact .of_dropping (hnil hl)

theorem nested (hc : sys.Reachable init c) (i : ι) : Nested (c.loc i) := by
  revert i
  refine hc.invariant (I := fun c => ∀ i, Nested (c.loc i)) ?_ ?_ fun _ e => nomatch e
  · exact fun i => .of_dropping fun f hf => nomatch hf
  · intro c i a s l _ ih _ hs j
    by_cases hj : j = i
    · subst hj
      rw [Config.set_loc_self]
      exact (ih j).step (step_move hs)
    · rw [Config.set_loc_of_ne hj]
      exact ih j

omit [DecidableEq ι] [DecidableEq N] in
/-- An operation that has the guard is called from the user code of the thread itself: a drop below it
would have the guard too. -/
theorem Nested.below_body {op : Op N} {rest : List (Frame ι N)} (hn : Nested l)
    (hg : l.guards ≤ 1) (hl : l.calls = .body op :: rest) : rest = [] := by
  cases hrest : rest with
  | nil => rfl
  | cons f rest' =>
    have hf : f.dropping = true := hn.below f (by rw [hl, hrest]; exact List.mem_cons_self)
    have hguard : f.guarded = true := by cases f <;> first | rfl | cases hf
    rw [Local.guards, hl, hrest, List.countP_cons_of_pos rfl, List.countP_cons_of_pos hguard] at hg
    omega

/-- What a removal found is what it returns. -/
structure Answered (h : Record ι N) (i : ι) (l : Local ι N) : Prop where
  result : ∀ b, l.result = some b → b = h.present i
  drops : ∀ ks b, Frame.drops ks (some b) ∈ l.calls → b = h.present i

/-! ### What a step adds to the record -/

/-- How a thread goes on, apart from cloning the hooks and calling one. -/
inductive Phase.Goes : Phase → Phase → Prop
  | stay {p : Phase} : Goes p p
  | start : Goes .unborn .main
  | spawned : Goes .unborn .run
  | run : Goes .run .snapshot
  | cloned {todo : List ℕ} : Goes (.cloned todo) (.hooks todo)
  | called {k : ℕ} {todo : List ℕ} : Goes (.called k todo) (.hooks todo)
  | main : Goes (.hooks []) .main
  | panic {k : ℕ} {todo : List ℕ} : Goes (.called k todo) (.unwind (k :: todo))
  | dies {todo : List ℕ} : Goes (.hooks todo) (.unwind todo)
  | unwind {k : ℕ} {ks : List ℕ} : Goes (.unwind (k :: ks)) (.unwind ks)
  | ended : Goes (.unwind []) .ended
  | finish : Goes .main .ended

/-- The thread goes on, and a result that it has after the step it had before. -/
structure Quiet (l l₁ : Local ι N) : Prop where
  phase : l.phase.Goes l₁.phase
  result : ∀ b, l₁.result = some b → l.result = some b ∨ ∃ ks, Frame.drops ks (some b) ∈ l.calls
  drops : ∀ ks b, Frame.drops ks (some b) ∈ l₁.calls → ∃ ks, Frame.drops ks (some b) ∈ l.calls

omit [DecidableEq ι] [DecidableEq N] in
theorem Quiet.of_calls (hp : l.phase.Goes l₁.phase) (hr : l₁.result = l.result)
    (hl : l₁.calls = l.calls) : Quiet l l₁ :=
  ⟨hp, fun b hb => .inl (by rw [← hr]; exact hb), fun ks b hb => ⟨ks, by rw [← hl]; exact hb⟩⟩

/-- What a step of the thread adds to the record. -/
inductive Noted (i : ι) (h : Record ι N) (s : Shared ι N) (l : Local ι N) :
    Record ι N → Shared ι N → Local ι N → Prop
  | change {op : Op N} {rest : List (Frame ι N)} : l.calls = .body op :: rest →
      Noted i h s l (h.change i op) { s with hooks := op.hooks s.hooks }
        { l with calls := .drops (op.dropped s.hooks) (op.result s.hooks) :: rest }
  | clone {s₁ : Shared ι N} : l.phase = .snapshot → s₁.hooks = s.hooks →
      Noted i h s l (h.clone i) s₁ { l with phase := .cloned (s.hooks.map Prod.snd) }
  | call {k : ℕ} {todo : List ℕ} : l.phase = .hooks (k :: todo) →
      Noted i h s l (h.call i k) s { l with phase := .called k todo, user := true }
  | quiet {s₁ : Shared ι N} {l₁ : Local ι N} : s₁.hooks = s.hooks → Quiet l l₁ →
      Noted i h s l h s₁ l₁

theorem Move.noted (hm : Move i a c.shared (c.loc i) s l) :
    Noted i h c.shared (c.loc i) (note c (.agent i a) h) s l := by
  generalize hl₀ : c.loc i = l₀ at hm
  generalize hs₀ : c.shared = s₀ at hm
  cases hm with
  | start =>
    exact .quiet rfl ⟨.start, fun _ hb => (nomatch hb), fun _ _ hb => nomatch hb⟩
  | spawned =>
    exact .quiet rfl ⟨.spawned, fun _ hb => (nomatch hb), fun _ _ hb => nomatch hb⟩
  | call hu hc =>
    have hnote : note c (.agent i a) h = h := by cases hc <;> rfl
    rw [hnote]
    refine .quiet (by cases hc <;> rfl) ⟨.stay, fun _ hb => (nomatch hb), fun ks b hb => ?_⟩
    rcases List.mem_cons.1 hb with hb | hb
    · cases hb
    · exact ⟨ks, hb⟩
  | join hu =>
    refine .quiet rfl ⟨.stay, fun _ hb => .inl hb, fun ks b hb => ?_⟩
    rcases List.mem_cons.1 hb with hb | hb
    · cases hb
    · exact ⟨ks, hb⟩
  | ret hu =>
    exact .quiet rfl (.of_calls .stay rfl rfl)
  | panicked hu hl =>
    refine .quiet rfl ⟨.stay, fun _ hb => .inl hb, fun ks b hb => ?_⟩
    rcases List.mem_cons.1 hb with hb | hb
    · cases hb
    · exact ⟨ks, by rw [hl]; exact List.mem_cons_of_mem _ hb⟩
  | panic hu hl hp =>
    refine .quiet rfl (.of_calls ?_ rfl rfl)
    rcases hp with ⟨k, todo, hp, rfl⟩ | hp
    · rw [hp]; exact .panic
    · rw [hp]; exact .dies
  | died hu hl hp =>
    exact .quiet rfl (.of_calls .stay rfl rfl)
  | lock hu hl hlock =>
    have hnote : note c (.agent i .step) h = h := by simp [note, hl₀, hu, hl]
    rw [hnote]
    refine .quiet rfl ⟨.stay, fun _ hb => .inl hb, fun ks b hb => ?_⟩
    rcases List.mem_cons.1 hb with hb | hb
    · cases hb
    · exact ⟨ks, by rw [hl]; exact List.mem_cons_of_mem _ hb⟩
  | @body _ _ op _ hu hl =>
    have hnote : note c (.agent i .step) h = h.change i op := by simp [note, hl₀, hu, hl]
    rw [hnote]
    exact .change hl
  | @drop _ _ _ ks _ _ hu hl =>
    have hnote : note c (.agent i .step) h = h := by simp [note, hl₀, hu, hl]
    rw [hnote]
    refine .quiet rfl ⟨.stay, fun _ hb => .inl hb, fun ks b hb => ?_⟩
    rw [hl]
    rcases List.mem_cons.1 hb with hb | hb
    · cases hb
      exact ⟨_, List.mem_cons_self⟩
    · exact ⟨ks, List.mem_cons_of_mem _ hb⟩
  | unlock hu hl =>
    have hnote : note c (.agent i .step) h = h := by simp [note, hl₀, hu, hl]
    rw [hnote]
    refine .quiet rfl ⟨.stay, fun b hb => .inr ⟨[], ?_⟩, fun ks b hb => ⟨ks, ?_⟩⟩
    · rw [hl, ← show _ = some b from hb]
      exact List.mem_cons_self
    · rw [hl]
      exact List.mem_cons_of_mem _ hb
  | joined hu hl hj =>
    have hnote : note c (.agent i .step) h = h := by simp [note, hl₀, hu, hl]
    rw [hnote]
    exact .quiet rfl ⟨.stay, fun _ hb => .inl hb, fun ks b hb =>
      ⟨ks, by rw [hl]; exact List.mem_cons_of_mem _ hb⟩⟩
  | run hu hl hp hlock =>
    have hnote : note c (.agent i .step) h = h := by simp [note, hl₀, hu, hl, hp]
    rw [hnote]
    exact .quiet rfl (.of_calls (by rw [hp]; exact .run) rfl rfl)
  | snapshot hu hl hp =>
    have hnote : note c (.agent i .step) h = h.clone i := by simp [note, hl₀, hu, hl, hp]
    rw [hnote]
    exact .clone hp rfl
  | cloned hu hl hp =>
    have hnote : note c (.agent i .step) h = h := by simp [note, hl₀, hu, hl, hp]
    rw [hnote]
    exact .quiet rfl (.of_calls (by rw [hp]; exact .cloned) rfl rfl)
  | @hook _ _ k _ hu hl hp =>
    have hnote : note c (.agent i .step) h = h.call i k := by simp [note, hl₀, hu, hl, hp]
    rw [hnote]
    exact .call hp
  | called hu hl hp =>
    have hnote : note c (.agent i .step) h = h := by simp [note, hl₀, hu, hl, hp]
    rw [hnote]
    exact .quiet rfl (.of_calls (by rw [hp]; exact .called) rfl rfl)
  | main hu hl hp =>
    have hnote : note c (.agent i .step) h = h := by simp [note, hl₀, hu, hl, hp]
    rw [hnote]
    exact .quiet rfl (.of_calls (by rw [hp]; exact .main) rfl rfl)
  | unwind hu hl hp =>
    have hnote : note c (.agent i .step) h = h := by simp [note, hl₀, hu, hl, hp]
    rw [hnote]
    exact .quiet rfl (.of_calls (by rw [hp]; exact .unwind) rfl rfl)
  | finish hu hl hp =>
    have hnote : note c (.agent i .step) h = h := by
      rcases hp with hp | hp <;> simp [note, hl₀, hu, hl, hp]
    rw [hnote]
    refine .quiet rfl (.of_calls ?_ rfl rfl)
    rcases hp with hp | hp <;> rw [hp]
    · exact .ended
    · exact .finish

/-! ### The invariant -/

omit [DecidableEq ι] in
theorem RunsInOrder.congr {h' : Record ι N} {p : Phase} (hr : RunsInOrder h i p)
    (hs : h'.snap i = h.snap i) (hran : h'.ran i = h.ran i) : RunsInOrder h' i p := by
  cases p <;> simp only [RunsInOrder, NoneTaken, Taken, hs, hran] at hr ⊢ <;> exact hr

omit [DecidableEq ι] in
theorem RunsInOrder.goes {p p' : Phase} (hr : RunsInOrder h i p) (hg : p.Goes p') :
    RunsInOrder h i p' := by
  cases hg with
  | stay | spawned | run | cloned | called => exact hr
  | start => exact .inl hr
  | main =>
    obtain ⟨taken, ht, hran⟩ := hr
    exact .inr ⟨taken, ht, by rw [← hran, List.append_nil]⟩
  | panic | dies =>
    obtain ⟨taken, ht, hran⟩ := hr
    exact ⟨taken, ht, hran ▸ List.prefix_append _ _⟩
  | unwind => exact hr
  | ended => exact .inr hr
  | finish => exact hr.imp_right fun ⟨taken, ht, hran⟩ => ⟨taken, ht, hran ▸ List.prefix_rfl⟩

theorem Answered.noted (ha : Answered h i l) (hf : Follows h.log s.hooks) (hn : Nested l)
    (hg : l.guards ≤ 1) {h₁ : Record ι N} (hm : Noted i h s l h₁ s₁ l₁) : Answered h₁ i l₁ := by
  cases hm with
  | @change op rest hl =>
    -- the thread has no result and no other drops
    have hresult := hn.fresh op (.inr (by rw [hl]; rfl))
    have hrest := hn.below_body hg hl
    subst hrest
    refine ⟨fun b hb => ?_, fun ks b hb => ?_⟩
    · rw [show l.result = some b from hb] at hresult
      cases hresult
    · have hb : Frame.drops ks (some b) =
          .drops (op.dropped s.hooks) (op.result s.hooks) := List.mem_singleton.1 hb
      simp only [Frame.drops.injEq] at hb
      cases op with
      | register n k => cases hb.2
      | clear => cases hb.2
      | remove n =>
        have hbool : b = (OrderedMap.position s.hooks n).isSome := Option.some.inj hb.2
        have hiff : (OrderedMap.position s.hooks n).isSome = (latest h.log n).isSome := by
          rw [Bool.eq_iff_iff, OrderedMap.position_isSome, hf.mem_keys]
        simp [Record.change, hbool, hiff]
  | clone hp _ => exact ⟨ha.result, ha.drops⟩
  | call hp => exact ⟨ha.result, ha.drops⟩
  | quiet _ hq =>
    refine ⟨fun b hb => ?_, fun ks b hb => ?_⟩
    · rcases hq.result b hb with hb | ⟨ks, hb⟩
      · exact ha.result b hb
      · exact ha.drops ks b hb
    · obtain ⟨ks, hb⟩ := hq.drops ks b hb
      exact ha.drops ks b hb

theorem RunsInOrder.noted (hr : RunsInOrder h i l.phase) (hf : Follows h.log s.hooks)
    {h₁ : Record ι N} (hm : Noted i h s l h₁ s₁ l₁) : RunsInOrder h₁ i l₁.phase := by
  cases hm with
  | change hl => exact hr.congr rfl rfl
  | clone hp _ =>
    -- the registry is the snapshot, and nothing of it has been called
    rw [hp] at hr
    obtain ⟨-, hran⟩ := hr
    refine ⟨s.hooks, ⟨h.log, ?_, hf⟩, ?_⟩
    · simp [Record.clone]
    · rw [show (h.clone i).ran i = [] from hran, List.nil_append]
  | @call k todo hp =>
    rw [hp] at hr
    obtain ⟨taken, ht, hran⟩ := hr
    refine ⟨taken, ht, ?_⟩
    rw [← hran]
    simp [Record.call]
  | quiet _ hq => exact hr.goes hq.phase

theorem Noted.other {h₁ : Record ι N} (hm : Noted i h s l h₁ s₁ l₁) {j : ι} (hj : j ≠ i) :
    h₁.present j = h.present j ∧ h₁.snap j = h.snap j ∧ h₁.ran j = h.ran j := by
  cases hm with
  | @change op _ hl =>
    refine ⟨?_, rfl, rfl⟩
    cases op <;> simp [Record.change, Function.update_of_ne hj]
  | clone hp _ => exact ⟨rfl, Function.update_of_ne hj _ _, rfl⟩
  | call hp => exact ⟨rfl, rfl, Function.update_of_ne hj _ _⟩
  | quiet _ _ => exact ⟨rfl, rfl, rfl⟩

theorem Noted.follows {h₁ : Record ι N} (hf : Follows h.log s.hooks)
    (hm : Noted i h s l h₁ s₁ l₁) : Follows h₁.log s₁.hooks := by
  cases hm with
  | @change op _ hl =>
    show Follows (op.change :: h.log) (op.hooks s.hooks)
    rw [op_hooks]
    exact hf.apply op.change
  | clone hp hs => rw [hs]; exact hf
  | call hp => exact hf
  | quiet hs _ => rw [hs]; exact hf

/-- The record of a run, with what the threads still carry. -/
structure Recorded (h : Record ι N) (c : Config ι (Shared ι N) (Local ι N)) : Prop where
  follows : Follows h.log c.shared.hooks
  answered : ∀ i, Answered h i (c.loc i)
  runs : ∀ i, RunsInOrder h i (c.loc i).phase

theorem Recorded.step (hc : sys.Reachable init c) (hr : Recorded h c)
    (hs : Move i a c.shared (c.loc i) s l) : Recorded (note c (.agent i a) h) (c.set i s l) := by
  have hm := hs.noted (h := h)
  refine ⟨hm.follows hr.follows, fun j => ?_, fun j => ?_⟩
  · by_cases hj : j = i
    · subst hj
      rw [Config.set_loc_self]
      exact (hr.answered j).noted hr.follows (nested hc j) ((excl hc).le_one j) hm
    · rw [Config.set_loc_of_ne hj]
      have hkeep := (hm.other hj).1
      exact ⟨fun b hb => hkeep ▸ (hr.answered j).result b hb,
        fun ks b hb => hkeep ▸ (hr.answered j).drops ks b hb⟩
  · by_cases hj : j = i
    · subst hj
      rw [Config.set_loc_self]
      exact (hr.runs j).noted hr.follows hm
    · rw [Config.set_loc_of_ne hj]
      exact (hr.runs j).congr (hm.other hj).2.1 (hm.other hj).2.2

theorem recorded (H : sys.History note .init init h c) : Recorded h c := by
  refine System.ReachNote.invariant (I := Recorded) H ?_ ?_ fun _ _ e => nomatch e
  · exact ⟨.nil, fun _ => ⟨fun _ hb => (nomatch hb), fun _ _ hb => nomatch hb⟩, fun _ => ⟨rfl, rfl⟩⟩
  · intro h c i a s l hc hr _ hs
    exact hr.step hc (step_move hs)

/-- **The spawn hooks are an insertion-ordered map**, in every run; and what each operation would do to
the list. -/
theorem in_order (H : sys.History note .init init h c) :
    InOrder h c ∧ ∀ op : Op N, op.Effect c.shared.hooks (op.hooks c.shared.hooks) := by
  have hr := recorded H
  exact ⟨⟨hr.follows, fun i => (hr.answered i).result, hr.runs⟩, op_effect hr.follows.distinct⟩

/-- Thread `true` registers two hooks and replaces the first; thread `false` runs them, and the first
that it calls removes the second. -/
def replaceAndRemove : List (Label Bool (Act Bool Bool) Empty) :=
  .agent true .start :: .agent true (.register false false) :: List.replicate 3 (.agent true .step) ++
    .agent true (.register true false) :: List.replicate 3 (.agent true .step) ++
    .agent true (.register false false) :: List.replicate 4 (.agent true .step) ++
    .agent false .spawned :: List.replicate 4 (.agent false .step) ++
    .agent false (.remove true) :: List.replicate 4 (.agent false .step) ++
    .agent false .ret :: List.replicate 2 (.agent false .step) ++
    .agent false .ret :: List.replicate 2 (.agent false .step)

/-- The run calls the hook that replaced the first, and the one that it removes. -/
theorem in_order_replaceAndRemove :
    ∃ (h : Record Bool Bool) (c : Config Bool (Shared Bool Bool) (Local Bool Bool)),
      sys.History note .init init h c ∧ c.shared.hooks = [(false, 2)] ∧ h.ran false = [2, 1] ∧
      (c.loc false).result = some true ∧ h.present false = true := by
  obtain ⟨h, c, H, hend⟩ := System.exists_note_of_along (M := sys) (P := fun _ _ _ => True)
    (h := Record.init) (c := init (ι := Bool) (N := Bool)) note
    (p := fun h c => decide (c.shared.hooks = [(false, 2)] ∧ h.ran false = [2, 1] ∧
      (c.loc false).result = some true))
    replaceAndRemove (by decide) (by decide)
  rw [decide_eq_true_eq] at hend
  obtain ⟨hhooks, hran, hresult⟩ := hend
  exact ⟨h, c, H, hhooks, hran, hresult, ((in_order H).1.answers false true hresult).symm⟩

end Hooks

end WasmSafeThread
