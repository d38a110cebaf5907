import WasmSafeThread.Mpsc.Fifo

/-!
# One operation of a call on the channel

A call in progress goes on by `step` and `spurious`.  What such an operation does to the channel, apart
from the queue and the frames below, is one of four things (`Goes`): nothing, a push, or the return of a
send or of a receive.
-/

namespace WasmSafeThread

namespace Mpsc

variable {ι T : Type*}

/-- The send has found that the receiver is gone. -/
def Pc.rejects : Pc T → Bool
  | .sendReject _ | .sendErr _ => true
  | _ => false

/-- What an operation of a call in progress does. -/
inductive Goes [DecidableEq ι] (i : ι) (s : Shared ι T) (l : Local ι T) (s₁ : Shared ι T) (l₁ : Local ι T) :
    Prop where
  | quiet (cv : Condvar.Shared ι (Option T) (List T)) (running : Option ι)
      (hs : s₁ = { s with cv := cv, running := running }) (hsends : l₁.pc.sends = l.pc.sends)
      (hrecv : l₁.pc.receives = l.pc.receives) (hpushed : l₁.pc.hasPushed = l.pc.hasPushed)
      (hrejects : l₁.pc.rejects = true → l.pc.rejects = true ∨ s.receiverActive = false)
  | push (x : Send T) (hp : l.pc = .sendPush x) (cv : Condvar.Shared ι (Option T) (List T))
      (hs : s₁ = { s with cv := cv, pushed := s.pushed ++ [x] }) (hl : l₁.pc = .sendDrop x)
  | returnSend (x : Send T) (r : Except T Unit)
      (hp : l.pc = .sendReturn x ∧ r = .ok () ∨ l.pc = .sendErr x ∧ r = .error x.value)
      (hs : s₁ = returnSend i x r s) (hl : l₁.pc = .ready)
  | returnRecv (y : Recv) (o : Outcome T) (hp : l.pc = .recvReturn y o)
      (hs : s₁ = returnRecv i y o s) (hl : l₁.pc = .ready)

variable [DecidableEq ι] [DecidableEq T] {i : ι} {a : Act T} {s s₁ : Shared ι T} {l l₁ : Local ι T}
  {p p₁ : Pc T} {b : Condvar.Act (Option T) (List T)}

omit [DecidableEq ι] [DecidableEq T] in
theorem Calls.hasPushed {canBlock : Bool} (h : Calls canBlock p b p₁) :
    p₁.hasPushed = p.hasPushed ∧ (p₁.rejects = true → p.rejects = true) := by
  cases h <;> exact ⟨rfl, id⟩

omit [DecidableEq ι] [DecidableEq T] in
theorem Reads.hasPushed (h : Reads s l p p₁) :
    p₁.hasPushed = p.hasPushed ∧ (p₁.rejects = true → p.rejects = true ∨ s.receiverActive = false) := by
  cases h with
  | sendLoadGone x hgone => exact ⟨rfl, fun _ => .inr hgone⟩
  | sendRecheckGone x hg hgone => exact ⟨rfl, fun _ => .inr hgone⟩
  | _ => exact ⟨rfl, fun hr => nomatch hr⟩

theorem step_stays (h : step i .step s l = some (s₁, l₁)) : l.cv.atRest = true ∨ l₁.pc = l.pc := by
  simp only [step] at h
  split at h
  · obtain ⟨⟨s₂, l₂⟩, hr, heq⟩ := Option.map_eq_some_iff.1 h
    split at hr
    · exact .inl ‹_›
    · obtain ⟨cv, lcv, -, rfl, rfl⟩ := lift_eq_some hr
      exact .inr (congrArg Local.pc (settle_parts heq).2).symm
  · cases h

theorem spurious_stays (h : step i .spurious s l = some (s₁, l₁)) : l₁.pc = l.pc := by
  simp only [step] at h
  split at h
  · obtain ⟨⟨s₂, l₂⟩, hr, heq⟩ := Option.map_eq_some_iff.1 h
    obtain ⟨cv, lcv, -, rfl, rfl⟩ := lift_eq_some hr
    exact (congrArg Local.pc (settle_parts heq).2).symm
  · cases h

/-- **One operation of a call in progress.** -/
theorem step_goes (h : step i a s l = some (s₁, l₁)) (ha : a = .step ∧ l.pc ≠ .ready ∨ a = .spurious) :
    Goes i s l s₁ l₁ := by
  rcases ha with ⟨rfl, hne⟩ | rfl
  · cases step_move h with
    | below b hb cv lcv hcv running => exact .quiet cv running rfl rfl rfl rfl .inl
    | call b p hcall cv lcv hcv running =>
      exact .quiet cv running rfl hcall.sends hcall.receives hcall.hasPushed.1 fun hr =>
        .inl (hcall.hasPushed.2 hr)
    | reads p hrest hreads running =>
      exact .quiet s.cv running rfl hreads.sends hreads.receives hreads.hasPushed.1 hreads.hasPushed.2
    | push x hp cv lcv hcv => exact .push x hp cv rfl rfl
    | pop y hp hg cv lcv hcv running =>
      refine .quiet cv running rfl ?_ ?_ ?_ ?_ <;> rw [hp] <;> dsimp only <;> split <;>
        first | rfl | exact nofun
    | returnOk x hp hrest => exact .returnSend x _ (.inl ⟨hp, rfl⟩) rfl rfl
    | returnErr x hp hrest => exact .returnSend x _ (.inr ⟨hp, rfl⟩) rfl rfl
    | returnRecv y o hp hrest => exact .returnRecv y o hp rfl rfl
    | cancel cv lcv hcv =>
      -- a pending future is not at rest, and stays in its call
      have hsusp := suspended_of_cancel hcv
      rcases step_stays h with hrest | hpc
      · rw [not_suspended_of_atRest hrest] at hsusp
        cases hsusp
      · exact absurd hpc.symm hne
    | send how k t hp | recv op hp | clone k hp | dropSender k hp | dropReceiver hp => exact absurd hp hne
  · simp only [step] at h
    split at h
    · rename_i hturn
      obtain ⟨⟨s₂, l₂⟩, hr, heq⟩ := Option.map_eq_some_iff.1 h
      obtain ⟨cv, lcv, -, rfl, rfl⟩ := lift_eq_some hr
      obtain ⟨running, -, hset⟩ := settle_eq (i := i) { s with cv := cv } ⟨lcv, l.pc⟩ hturn rfl rfl
      rw [hset] at heq
      cases heq
      exact .quiet cv running rfl rfl rfl rfl .inl
    · cases h

end Mpsc

end WasmSafeThread
