import Kademlia.Commands.Waiting
import Kademlia.Foundations.Service

/-!
What the calls of the frontend return.

The queue, the commands in memory and the two threads that work on them come to a
service: a call is asked, the network thread makes a result of it, and the thread that
called takes this result. A command passes from one thread to the other, and its address
is used again later, but no thread gets the result of another call.
-/

namespace Kademlia.Commands

open Foundations Model

variable {Thread File : Type}

/-- What a call returns if it is dispatched; `rpcResult` is what `handle_rpc_upload` or
`handle_rpc_download` returns. -/
def callResult (call : FrontendCall File) (rpcResult : ℤ) : Option ℤ :=
  match call with
  | .showNetworkStatus => some 1
  | .downloadFile file | .uploadFile file => if file.isNone then none else some rpcResult

/-- The call that a command was made for. -/
def callOf (command : Command File) : FrontendCall File :=
  match command.cmdType with
  | .cmdDownload => .downloadFile command.file
  | .cmdUpload => .uploadFile command.file
  | .cmdShowStatus | .cmdNone => .showNetworkStatus

/-- What has become of a command. The result is there when the network thread is behind the
`switch`, though the command is not done yet. -/
def progress (s : Client Thread File) (c : ℕ) : Service.State (FrontendCall File) ℤ :=
  match s.heap c with
  | none => .idle
  | some command =>
      if command.done = true ∨ s.network = .signalling ∧ s.cmd = some c then
        .answered command.result
      else .asked (callOf command)

/-- Where a thread is with its call. -/
def service (s : Client Thread File) (thread : Thread) : Service.State (FrontendCall File) ℤ :=
  (commandOf (s.frontend thread)).elim .idle (progress s)

/-- No command is of the type that `handle_pending` does not know. -/
def Typed (s : Client Thread File) : Prop :=
  ∀ c command, s.heap c = some command → command.cmdType ≠ .cmdNone

/-- The event is what is seen of a move. -/
def Reports (move : Move Thread File) (answer : Option ℤ) :
    Option (Thread × Service.Event (FrontendCall File) ℤ ℤ) → Prop
  | none => answer = none
  | some (thread, .ask call) =>
      answer = none ∧
        ∃ malloc mutexInit condInit, move = .call thread call malloc mutexInit condInit
  | some (_, .serve rpcResult) => answer = none ∧ move = .network rpcResult
  | some (thread, .answer result) => answer = some result ∧ move = .frontend thread
  | some (thread, .refuse) => answer = some (-1) ∧
      ∃ call malloc mutexInit condInit, move = .call thread call malloc mutexInit condInit

section Moves

variable [DecidableEq Thread] {s s' : Client Thread File} {thread : Thread} {c : ℕ}
  {command : Command File}

/-! ### The service that is seen -/

omit [DecidableEq Thread] in
theorem service_idle (h : commandOf (s.frontend thread) = none) : service s thread = .idle := by
  rw [service, h, Option.elim_none]

omit [DecidableEq Thread] in
theorem service_held (h : commandOf (s.frontend thread) = some c) :
    service s thread = progress s c := by
  rw [service, h, Option.elim_some]

omit [DecidableEq Thread] in
theorem progress_asked (hc : s.heap c = some command) (hdone : command.done = false)
    (hsignal : ¬ (s.network = .signalling ∧ s.cmd = some c)) :
    progress s c = .asked (callOf command) := by
  simp [progress, hc, hdone, hsignal]

omit [DecidableEq Thread] in
theorem progress_answered (hc : s.heap c = some command)
    (h : command.done = true ∨ s.network = .signalling ∧ s.cmd = some c) :
    progress s c = .answered command.result := by
  simp only [progress, hc, if_pos h]

omit [DecidableEq Thread] in
theorem progress_congr (hheap : s'.heap c = s.heap c)
    (hsignal : s'.network = .signalling ∧ s'.cmd = some c ↔
      s.network = .signalling ∧ s.cmd = some c) : progress s' c = progress s c := by
  simp only [progress, hheap, hsignal]

omit [DecidableEq Thread] in
/-- A thread sees nothing of a change that leaves its command and its result alone. -/
theorem service_congr (hheld : commandOf (s'.frontend thread) = commandOf (s.frontend thread))
    (hsame : ∀ c, commandOf (s.frontend thread) = some c → progress s' c = progress s c) :
    service s' thread = service s thread := by
  rw [service, service, hheld]
  cases hc : commandOf (s.frontend thread) with
  | none => rfl
  | some c => exact hsame c hc

theorem move_act {event : Service.Event (FrontendCall File) ℤ ℤ}
    {before after : Service.State (FrontendCall File) ℤ} (hbefore : service s thread = before)
    (hstep : Service.Step callResult before event after) (hafter : service s' thread = after)
    (hothers : ∀ t, t ≠ thread → service s' t = service s t) :
    Service.Move callResult (service s) (some (thread, event)) (service s') := by
  have heq : service s' = Function.update (service s) thread after := by
    funext t
    by_cases ht : t = thread
    · rw [ht, Function.update_self, hafter]
    · rw [Function.update_of_ne ht, hothers t ht]
  rw [heq]
  rw [← hbefore] at hstep
  exact .act hstep

omit [DecidableEq Thread] in
theorem service_eq
    (hheld : ∀ thread, commandOf (s'.frontend thread) = commandOf (s.frontend thread))
    (hheap : s'.heap = s.heap) (hsignal : ∀ c, s'.network = .signalling ∧ s'.cmd = some c ↔
      s.network = .signalling ∧ s.cmd = some c) : service s' = service s := by
  funext thread
  exact service_congr (hheld thread) fun c _ => progress_congr (congrFun hheap c) (hsignal c)

theorem move_rest (h : service s' = service s) :
    Service.Move callResult (service s) none (service s') := by
  rw [h]
  exact .rest _

/-! ### The frontend -/

theorem commandInit_fields {mutexInit condInit : ℤ}
    (h : commandInit mutexInit condInit = some command) : command = ⟨.cmdNone, none, false, 0⟩ := by
  unfold commandInit at h
  split_ifs at h
  exact (Option.some.inj h).symm

theorem callOf_fill (call : FrontendCall File) :
    callOf (call.fill ⟨.cmdNone, none, false, 0⟩) = call := by
  cases call <;> rfl

theorem done_fill (call : FrontendCall File) :
    (call.fill (⟨.cmdNone, none, false, 0⟩ : Command File)).done = false := by
  cases call <;> rfl

omit [DecidableEq Thread] in
theorem Sound.cmd_heap (h : Sound s) (hnet : s.network = .signalling) (hcmd : s.cmd = some c) :
    (s.heap c).isSome = true :=
  (h.live c (by simp [inHand, handled, hnet, hcmd])).1

theorem serves_submit (h : Sound s) (hout : s.frontend thread = .outside)
    (call : FrontendCall File) (malloc : Option ℕ) (mutexInit condInit : ℤ) :
    ∃ event, Service.Move callResult (service s) event
        (service (submit s thread call malloc mutexInit condInit).2) ∧
      Reports (.call thread call malloc mutexInit condInit)
        (submit s thread call malloc mutexInit condInit).1 event := by
  have hidle : service s thread = .idle := service_idle (by rw [hout, commandOf])
  unfold submit
  split
  · next c command hinit =>
      obtain rfl := commandInit_fields hinit
      split
      · exact ⟨none, .rest _, rfl⟩
      · next hfree =>
          have hnone : s.heap c = none := by simpa using hfree
          have hsignal : ¬ (s.network = .signalling ∧ s.cmd = some c) := by
            rintro ⟨hnet, hcmd⟩
            simpa [hnone] using h.cmd_heap hnet hcmd
          refine ⟨some (thread, .ask call), move_act hidle (.ask call) ?_ fun t ht => ?_, rfl,
            some c, mutexInit, condInit, rfl⟩
          · rw [service_held (c := c) (by rw [frontend_setFrontend, if_pos rfl, commandOf])]
            have hasked := progress_asked (c := c)
              (s := (s.store c (some (call.fill ⟨.cmdNone, none, false, 0⟩))).setFrontend thread
                (.created c)) (Function.update_self ..) (done_fill call) hsignal
            rwa [callOf_fill] at hasked
          · refine service_congr (by rw [frontend_setFrontend, if_neg ht]; rfl) fun c' hc' => ?_
            have hne : c' ≠ c := by
              rintro rfl
              simpa [hnone] using h.owned t _ hc'
            exact progress_congr (Function.update_of_ne hne _ _) Iff.rfl
  · exact ⟨some (thread, .refuse), move_act hidle .refuse hidle fun t _ => rfl, rfl,
      call, _, mutexInit, condInit, rfl⟩

theorem serves_awaitDone (h : Sound s)
    (hheld : s.frontend thread = .pushed c ∨ s.frontend thread = .waiting c) :
    ∃ event, Service.Move callResult (service s) event (service (awaitDone s thread c).2) ∧
      Reports (.frontend thread) (awaitDone s thread c).1 event := by
  have hown := commandOf_awaiting hheld
  unfold awaitDone
  split
  · next command hc =>
      split
      · next hdone =>
          have hbefore : service s thread = .answered command.result := by
            rw [service_held hown, progress_answered hc (.inl hdone)]
          refine ⟨some (thread, .answer command.result), move_act hbefore (.answer _) ?_
            fun t ht => ?_, rfl, rfl⟩
          · exact service_idle (by rw [frontend_setFrontend, if_pos rfl, commandOf])
          · refine service_congr (by rw [frontend_setFrontend, if_neg ht]; rfl) fun c' hc' => ?_
            have hne : c' ≠ c := by
              rintro rfl
              exact ht (h.alone t thread _ hc' hown)
            exact progress_congr (Function.update_of_ne hne _ _) Iff.rfl
      · refine ⟨none, move_rest (service_eq (fun t => ?_) rfl fun c => Iff.rfl), rfl⟩
        rw [frontend_setFrontend]
        split
        · next ht => rw [ht, hown, commandOf]
        · rfl
  · exact ⟨none, .rest _, rfl⟩

theorem serves_frontendStep (h : Sound s) (thread : Thread) :
    ∃ event, Service.Move callResult (service s) event (service (frontendStep s thread).2) ∧
      Reports (.frontend thread) (frontendStep s thread).1 event := by
  unfold frontendStep
  split
  · exact ⟨none, .rest _, rfl⟩
  · next c hc =>
      refine ⟨none, move_rest (service_eq (fun t => ?_) rfl fun c => Iff.rfl), rfl⟩
      rw [frontend_setFrontend]
      split
      · next ht => rw [ht, hc, commandOf, commandOf]
      · rfl
  · next c hc => exact serves_awaitDone h (.inl hc)
  · next c hc => exact serves_awaitDone h (.inr hc)

/-! ### The network thread -/

omit [DecidableEq Thread] in
theorem dispatch_eq (htype : command.cmdType ≠ .cmdNone) (rpcResult : ℤ) :
    dispatch rpcResult command =
      (callResult (callOf command) rpcResult).map
        fun result => { command with result := result } := by
  unfold dispatch callResult callOf
  cases hcmd : command.cmdType with
  | cmdNone => exact absurd hcmd htype
  | cmdShowStatus => rfl
  | cmdUpload | cmdDownload =>
      dsimp only
      split <;> rfl

omit [DecidableEq Thread] in
theorem service_network (hfrontend : s'.frontend = s.frontend) (hheap : s'.heap = s.heap)
    (hnet : s.network ≠ .signalling) (hnet' : s'.network ≠ .signalling) :
    service s' = service s :=
  service_eq (fun _ => by rw [hfrontend]) hheap fun c => by simp [hnet, hnet']

/-- The command behind the `switch` is answered, for the one thread that has it. -/
theorem serves_dispatch (h : Sound s) (htyped : Typed s) (hnet : s.network = .handling)
    (hcmd : s.cmd = some c) (hc : s.heap c = some command) {rpcResult : ℤ}
    {command' : Command File} (hdispatch : dispatch rpcResult command = some command') :
    ∃ event, Service.Move callResult (service s) event
        (service { s.store c (some command') with network := .signalling }) ∧
      Reports (.network rpcResult) none event := by
  have hmem : c ∈ inHand s := by simp [inHand, handled, hnet, hcmd]
  obtain ⟨thread, hthread⟩ := h.awaited c hmem
  have hheld := commandOf_awaiting hthread
  have hdone : command.done = false := by
    by_contra hdone
    exact (h.live c hmem).2 ⟨command, hc, by simpa using hdone⟩
  rw [dispatch_eq (htyped c command hc)] at hdispatch
  obtain ⟨result, hresult, rfl⟩ := Option.map_eq_some_iff.mp hdispatch
  have hbefore : service s thread = .asked (callOf command) := by
    rw [service_held hheld]
    exact progress_asked hc hdone (by simp [hnet])
  set s' : Client Thread File := { s.store c (some { command with result := result }) with
    network := .signalling }
  have hheld' : commandOf (s'.frontend thread) = some c := hheld
  have hnew : s'.heap c = some { command with result := result } := Function.update_self ..
  refine ⟨some (thread, .serve rpcResult), move_act hbefore (.serve hresult) ?_ fun t ht => ?_,
    rfl, rfl⟩
  · rw [service_held hheld', progress_answered hnew (.inr ⟨rfl, hcmd⟩)]
  · refine service_congr rfl fun c' hc' => ?_
    have hne : c' ≠ c := by
      rintro rfl
      exact ht (h.alone t thread _ hc' hheld)
    refine progress_congr (Function.update_of_ne hne _ _) ?_
    simp [s', Client.store, hnet, hcmd, Ne.symm hne]

omit [DecidableEq Thread] in
theorem service_signal (hnet : s.network = .signalling) (hcmd : s.cmd = some c)
    (hc : s.heap c = some command) :
    service { s.store c (some { command with done := true }) with network := .testing } =
      service s := by
  set s' : Client Thread File := { s.store c (some { command with done := true }) with
    network := .testing }
  have hc' : s'.heap c = some { command with done := true } := Function.update_self ..
  funext thread
  refine service_congr rfl fun c' _ => ?_
  by_cases hne : c' = c
  · subst hne
    rw [progress_answered hc (.inr ⟨hnet, hcmd⟩), progress_answered hc' (.inl rfl)]
  · refine progress_congr (Function.update_of_ne hne _ _) ?_
    simp [s', hcmd, Ne.symm hne]

theorem serves_networkStep (h : Sound s) (htyped : Typed s) (rpcResult : ℤ) :
    ∃ event, Service.Move callResult (service s) event (service (networkStep s rpcResult)) ∧
      Reports (.network rpcResult) none event := by
  have hrest : ∀ {s' : Client Thread File}, s'.frontend = s.frontend → s'.heap = s.heap →
      s.network ≠ .signalling → s'.network ≠ .signalling →
      ∃ event, Service.Move callResult (service s) event (service s') ∧
        Reports (.network rpcResult) none event :=
    fun hfrontend hheap hnet hnet' =>
      ⟨none, move_rest (service_network hfrontend hheap hnet hnet'), rfl⟩
  unfold networkStep
  split
  · next hnet => exact hrest rfl rfl (by simp [hnet]) (by simp)
  · next hnet => split <;> exact hrest rfl rfl (by simp [hnet]) (by simp)
  · next hnet => exact hrest rfl rfl (by simp [hnet]) (by simp)
  · next hnet =>
      split
      · exact hrest rfl rfl (by simp [hnet]) (by simp)
      · next c hcmd =>
          split
          · exact hrest rfl rfl (by simp [hnet]) (by simp)
          · next command hc =>
              split
              · exact hrest rfl rfl (by simp [hnet]) (by simp)
              · next command' hdispatch =>
                  exact serves_dispatch h htyped hnet hcmd hc hdispatch
  · next hnet =>
      have hcrash := h.not_crash (.inr hnet)
      split
      · next hcmd => exact absurd (fun c hc => by rw [hcmd] at hc; cases hc) hcrash
      · next c hcmd =>
          split
          · next hc =>
              refine absurd (fun c' hc' => ?_) hcrash
              rw [hcmd] at hc'
              exact Option.some.inj hc' ▸ hc
          · next command hc =>
              exact ⟨none, move_rest (service_signal hnet hcmd hc), rfl⟩
  · exact ⟨none, .rest _, rfl⟩

/-! ### Every run -/

omit [DecidableEq Thread] in
theorem Typed.store (h : Typed s) (htype : command.cmdType ≠ .cmdNone)
    (hheap : s'.heap = Function.update s.heap c (some command)) : Typed s' := by
  intro c' command' hc'
  rw [hheap, Function.update_apply] at hc'
  split at hc'
  · exact Option.some.inj hc' ▸ htype
  · exact h c' command' hc'

omit [DecidableEq Thread] in
theorem Typed.free (h : Typed s) (hheap : s'.heap = Function.update s.heap c none) : Typed s' := by
  intro c' command hc'
  rw [hheap, Function.update_apply] at hc'
  split at hc'
  · cases hc'
  · exact h c' command hc'

theorem typed_frontendStep (h : Typed s) (thread : Thread) :
    Typed (frontendStep s thread).2 := by
  have hawait : ∀ c, Typed (awaitDone s thread c).2 := by
    intro c
    unfold awaitDone
    split
    · split
      · exact h.free rfl
      · exact h
    · exact h
  unfold frontendStep
  split
  · exact h
  · exact h
  · exact hawait _
  · exact hawait _

omit [DecidableEq Thread] in
theorem typed_networkStep (h : Typed s) (rpcResult : ℤ) : Typed (networkStep s rpcResult) := by
  unfold networkStep
  split
  · exact h
  · split <;> exact h
  · exact h
  · split
    · exact h
    · split
      · exact h
      · next command hc =>
          split
          · exact h
          · next command' hdispatch =>
              rw [dispatch_eq (h _ command hc)] at hdispatch
              obtain ⟨result, -, rfl⟩ := Option.map_eq_some_iff.mp hdispatch
              have htype : ({ command with result := result } : Command File).cmdType ≠ .cmdNone :=
                h _ command hc
              exact h.store htype rfl
  · split
    · exact h
    · split
      · exact h
      · next command hc =>
          have htype : ({ command with done := true } : Command File).cmdType ≠ .cmdNone :=
            h _ command hc
          exact h.store htype rfl
  · exact h

theorem typed_clientStep (h : Typed s) (move : Move Thread File) :
    Typed (clientStep s move).2 := by
  cases move with
  | call thread call malloc mutexInit condInit =>
      rw [clientStep]
      split
      · unfold submit
        split
        · next c command hinit =>
            split
            · exact h
            · have htype : (call.fill command).cmdType ≠ .cmdNone := by
                intro hnone
                cases call <;> cases hnone
              exact h.store htype rfl
        · exact h
      · exact h
  | frontend thread => exact typed_frontendStep h thread
  | network rpcResult => exact typed_networkStep h rpcResult

theorem serves_clientStep (h : Sound s) (htyped : Typed s) (move : Move Thread File) :
    ∃ event, Service.Move callResult (service s) event (service (clientStep s move).2) ∧
      Reports move (clientStep s move).1 event := by
  cases move with
  | call thread call malloc mutexInit condInit =>
      rw [clientStep]
      split
      · next hout => exact serves_submit h hout call malloc mutexInit condInit
      · exact ⟨none, .rest _, rfl⟩
  | frontend thread => exact serves_frontendStep h thread
  | network rpcResult => exact serves_networkStep h htyped rpcResult

theorem serves_run (h : Sound s) (htyped : Typed s) (moves : List (Move Thread File)) :
    ∃ events, Service.Moves callResult (service s) events (service (clientStep.run s moves).2) ∧
      List.Forall₂ (fun (seen : Move Thread File × Option ℤ) event =>
        Reports seen.1 seen.2 event) (moves.zip (clientStep.run s moves).1) events := by
  induction moves generalizing s with
  | nil => exact ⟨[], .nil _, .nil⟩
  | cons move moves ih =>
      obtain ⟨event, hmove, hreports⟩ := serves_clientStep h htyped move
      obtain ⟨events, hmoves, hrest⟩ := ih (sound_change h (change_clientStep s move))
        (typed_clientStep htyped move)
      exact ⟨event :: events, .cons hmove hmoves, .cons hreports hrest⟩

/-- In any run of the frontend threads and the network thread, the calls are asked, served and
answered as those of a service; so what a call returns was made of this call, by the one dispatch
of its command, or the call failed at its start. -/
theorem calls_served (q : CommandQueue ℕ) (mutexInit : ℤ) (moves : List (Move Thread File)) :
    ∃ events, Service.Moves callResult (fun _ => .idle) events
        (service (clientStep.run (Client.initial q mutexInit) moves).2) ∧
      List.Forall₂ (fun (seen : Move Thread File × Option ℤ) event =>
        Reports seen.1 seen.2 event)
        (moves.zip (clientStep.run (Client.initial q mutexInit) moves).1) events ∧
      ∀ thread before result after,
        Service.eventsOf thread events = before ++ .answer result :: after →
          ∃ earlier call rpcResult, before = earlier ++ [.ask call, .serve rpcResult] ∧
            callResult call rpcResult = some result := by
  have htyped : Typed (Client.initial q mutexInit : Client Thread File) :=
    fun c command hc => nomatch hc
  obtain ⟨events, hmoves, hreports⟩ :=
    serves_run (sound_initial q mutexInit) htyped moves
  refine ⟨events, hmoves, hreports, fun thread before result after hevents => ?_⟩
  have hrun := hmoves.run thread
  rw [hevents] at hrun
  exact hrun.answer

end Moves

end Kademlia.Commands
