import Kademlia.Commands.Queue

/-!
Which commands are lost while somebody waits for them.

A command is in hand as long as it is in the queue or handled by the network
thread. A move takes a command out of hand, or keeps it from getting there, in
three ways: the command is done, its `queue_push` meets a full queue, or it is
to upload or download no file. Only the first one wakes its submitter.
-/

namespace Kademlia.Commands

open Foundations Model

variable {Thread File : Type}

def commandOf : Frontend → Option ℕ
  | .outside => none
  | .created c | .pushed c | .waiting c => some c

/-- The commands between `queue_pop` and the end of their handling. -/
def handled (s : Client Thread File) : List ℕ :=
  match s.network with
  | .handling | .signalling => s.cmd.toList
  | _ => []

def inHand (s : Client Thread File) : List ℕ := handled s ++ pending s.commands

def IsDone (s : Client Thread File) (c : ℕ) : Prop :=
  ∃ command, s.heap c = some command ∧ command.done = true

/-- Whoever waits in `pthread_cond_wait` waits for a command in the queue, for the
one that is handled, or for one that is done. -/
def NoneLost (s : Client Thread File) : Prop :=
  ∀ thread c, s.frontend thread = .waiting c →
    c ∈ pending s.commands ∨ c ∈ handled s ∨ IsDone s c

/-- The two places of the code that drop a command are not reached: a
`queue_push` finds room, and an upload or a download has a file. -/
def DropsNothing (s : Client Thread File) : Move Thread File → Prop
  | .call .. => True
  | .frontend thread =>
      ∀ c, s.frontend thread = .created c → s.commands.count ≠ maxCommandsPending
  | .network _ =>
      ∀ c command, s.network = .handling → s.cmd = some c → s.heap c = some command →
        command.cmdType = .cmdUpload ∨ command.cmdType = .cmdDownload → command.file ≠ none

/-! ### What one move can do -/

section Moves

variable [DecidableEq Thread] {s : Client Thread File} {move : Move Thread File}

inductive Change (s : Client Thread File) (move : Move Thread File) : Client Thread File → Prop
  | nothing : Change s move s
  | create (thread c command) (hfree : s.heap c = none) (hnew : command.done = false) :
      s.frontend thread = .outside →
      Change s move ((s.store c (some command)).setFrontend thread (.created c))
  | push (thread c) : move = .frontend thread → s.frontend thread = .created c →
      Change s move ({ s with commands := (queuePush s.commands c).2 }.setFrontend thread (.pushed c))
  | wait (thread c) : s.frontend thread = .pushed c ∨ s.frontend thread = .waiting c →
      Change s move (s.setFrontend thread (.waiting c))
  | leave (thread c) : commandOf (s.frontend thread) = some c → IsDone s c →
      Change s move ((s.store c none).setFrontend thread .outside)
  | enter : s.network = .outside → Change s move { s with network := .testing, cmd := none }
  | find : s.network = .testing → s.commands.count > 0 → Change s move { s with network := .popping }
  | finish : s.network = .testing → Change s move { s with network := .outside }
  | pop : s.network = .popping →
      Change s move { s with
        commands := (queuePop s.commands).2
        cmd := (queuePop s.commands).1.or s.cmd
        network := .handling }
  | drop (rpcResult c command) : move = .network rpcResult → s.network = .handling →
      s.cmd = some c → s.heap c = some command → command.file = none →
      command.cmdType = .cmdUpload ∨ command.cmdType = .cmdDownload →
      Change s move { s with network := .testing }
  | handle (c command command') : s.network = .handling → s.cmd = some c →
      s.heap c = some command → command'.done = command.done →
      Change s move { s.store c (some command') with network := .signalling }
  | signal (c command) : s.network = .signalling → s.cmd = some c → s.heap c = some command →
      Change s move { s.store c (some { command with done := true }) with network := .testing }
  | crash : s.network = .handling ∨ s.network = .signalling →
      (∀ c, s.cmd = some c → s.heap c = none) → Change s move { s with network := .stuck }

theorem dispatch_eq_none {rpcResult : ℤ} {command : Command File}
    (h : dispatch rpcResult command = none) :
    command.file = none ∧ (command.cmdType = .cmdUpload ∨ command.cmdType = .cmdDownload) := by
  unfold dispatch at h
  split at h <;> simp_all

theorem dispatch_done {rpcResult : ℤ} {command command' : Command File}
    (h : dispatch rpcResult command = some command') : command'.done = command.done := by
  unfold dispatch at h
  split at h
  · cases h
    rfl
  all_goals
    first
    | cases h; rfl
    | split at h <;> cases h; rfl

theorem change_submit (thread : Thread) (call : FrontendCall File) (malloc : Option ℕ)
    (mutexInit condInit : ℤ) (hout : s.frontend thread = .outside) :
    Change s move (submit s thread call malloc mutexInit condInit).2 := by
  unfold submit
  split
  · next c command hinit =>
      have hnew : command.done = false := by
        unfold commandInit at hinit
        split_ifs at hinit
        cases hinit
        rfl
      split
      · exact .nothing
      · next hfree =>
          refine .create thread c _ (by simpa using hfree) ?_ hout
          cases call <;> exact hnew
  · exact .nothing

theorem change_awaitDone {thread : Thread} {c : ℕ}
    (h : s.frontend thread = .pushed c ∨ s.frontend thread = .waiting c) :
    Change s move (awaitDone s thread c).2 := by
  unfold awaitDone
  split
  · next command hc =>
      split
      · next hdone =>
          refine .leave thread c ?_ ⟨command, hc, hdone⟩
          rcases h with h | h <;> rw [h] <;> rfl
      · exact .wait thread c h
  · exact .nothing

theorem change_networkStep (rpcResult : ℤ) :
    Change s (.network rpcResult) (networkStep s rpcResult) := by
  unfold networkStep
  split
  · next h => exact .enter h
  · next h =>
      split
      · next hcount => exact .find h hcount
      · exact .finish h
  · next h => exact .pop h
  · next h =>
      split
      · next hcmd => exact .crash (.inl h) (by simp [hcmd])
      · next c hcmd =>
          split
          · next hc => exact .crash (.inl h) (by simp [hcmd, hc])
          · next command hc =>
              split
              · next hd =>
                  obtain ⟨hfile, htype⟩ := dispatch_eq_none hd
                  exact .drop rpcResult c command rfl h hcmd hc hfile htype
              · next command' hd => exact .handle c command command' h hcmd hc (dispatch_done hd)
  · next h =>
      split
      · next hcmd => exact .crash (.inr h) (by simp [hcmd])
      · next c hcmd =>
          split
          · next hc => exact .crash (.inr h) (by simp [hcmd, hc])
          · next command hc => exact .signal c command h hcmd hc
  · exact .nothing

theorem change_clientStep (s : Client Thread File) (move : Move Thread File) :
    Change s move (clientStep s move).2 := by
  cases move with
  | call thread call malloc mutexInit condInit =>
      rw [clientStep]
      split
      · next hout => exact change_submit thread call malloc mutexInit condInit hout
      · exact .nothing
  | frontend thread =>
      rw [clientStep, frontendStep]
      split
      · exact .nothing
      · next c h => exact .push thread c rfl h
      · next c h => exact change_awaitDone (.inl h)
      · next c h => exact change_awaitDone (.inr h)
  | network rpcResult => exact change_networkStep rpcResult

/-! ### What holds in every run -/

/-- Every command in hand is in memory, not done, in hand once, and somebody waits or
is about to wait for it; nobody else has it. -/
structure Sound (s : Client Thread File) : Prop where
  ring : RingOk s.commands
  /-- the network thread has a command where it uses one -/
  steady : s.network = .handling ∨ s.network = .signalling → s.cmd.isSome = true
  finds : s.network = .popping → pending s.commands ≠ []
  runs : s.network ≠ .stuck
  owned : ∀ thread c, commandOf (s.frontend thread) = some c → (s.heap c).isSome = true
  alone : ∀ thread thread' c, commandOf (s.frontend thread) = some c →
    commandOf (s.frontend thread') = some c → thread = thread'
  fresh : ∀ thread c, s.frontend thread = .created c → c ∉ inHand s ∧ ¬ IsDone s c
  live : ∀ c ∈ inHand s, (s.heap c).isSome = true ∧ ¬ IsDone s c
  nodup : (inHand s).Nodup
  awaited : ∀ c ∈ inHand s, ∃ thread, s.frontend thread = .pushed c ∨ s.frontend thread = .waiting c

theorem commandOf_awaiting {place : Frontend} {c : ℕ} (h : place = .pushed c ∨ place = .waiting c) :
    commandOf place = some c := by
  rcases h with rfl | rfl <;> rfl

omit [DecidableEq Thread] in
theorem sound_initial (q : CommandQueue ℕ) (mutexInit : ℤ) :
    Sound (Client.initial q mutexInit : Client Thread File) where
  ring := ringOk_queueInit q mutexInit
  steady := by simp [Client.initial]
  finds := by simp [Client.initial]
  runs := by simp [Client.initial]
  owned := by simp [Client.initial, commandOf]
  alone := by simp [Client.initial, commandOf]
  fresh := by simp [Client.initial]
  live := by simp [inHand, handled, Client.initial, pending_queueInit]
  nodup := by simp [inHand, handled, Client.initial, pending_queueInit]
  awaited := by simp [inHand, handled, Client.initial, pending_queueInit]

section Frames

variable (s) (thread : Thread) (place : Frontend) (c : ℕ) (command : Option (Command File))

theorem frontend_setFrontend (t : Thread) :
    (s.setFrontend thread place).frontend t = if t = thread then place else s.frontend t :=
  Function.update_apply ..

@[simp] theorem inHand_setFrontend : inHand (s.setFrontend thread place) = inHand s := rfl

@[simp] theorem isDone_setFrontend (c : ℕ) :
    IsDone (s.setFrontend thread place) c ↔ IsDone s c := Iff.rfl

omit [DecidableEq Thread] in
theorem heap_store (c' : ℕ) :
    (s.store c command).heap c' = if c' = c then command else s.heap c' :=
  Function.update_apply ..

omit [DecidableEq Thread] in
theorem isSome_heap_store {old : Command File} (hold : s.heap c = some old) (new : Command File)
    (c' : ℕ) : ((s.store c (some new)).heap c').isSome = (s.heap c').isSome := by
  rw [heap_store]
  split_ifs with hc'
  · rw [hc', hold]
    rfl
  · rfl

omit [DecidableEq Thread] in
theorem isDone_store_of_ne {c' : ℕ} (h : c' ≠ c) :
    IsDone (s.store c command) c' ↔ IsDone s c' := by
  rw [IsDone, heap_store, if_neg h, IsDone]

end Frames

omit [DecidableEq Thread] in
theorem isDone_store {c : ℕ} {old new : Command File} (hold : s.heap c = some old)
    (hsame : new.done = old.done) (c' : ℕ) : IsDone (s.store c (some new)) c' ↔ IsDone s c' := by
  by_cases hc' : c' = c
  · rw [IsDone, heap_store, if_pos hc', IsDone, hc', hold]
    simp [hsame]
  · exact isDone_store_of_ne s c _ hc'

omit [DecidableEq Thread] in
/-- A step of the network thread keeps what it takes out of hand, or leaves as it is. -/
theorem Sound.network {s' : Client Thread File} (h : Sound s) (hfrontend : s'.frontend = s.frontend)
    (hheap : ∀ c, (s'.heap c).isSome = (s.heap c).isSome)
    (hhand : (inHand s').Sublist (inHand s))
    (hdone : ∀ c, IsDone s' c → IsDone s c ∨ c ∈ inHand s ∧ c ∉ inHand s')
    (hring : RingOk s'.commands)
    (hsteady : s'.network = .handling ∨ s'.network = .signalling → s'.cmd.isSome = true)
    (hfinds : s'.network = .popping → pending s'.commands ≠ []) (hruns : s'.network ≠ .stuck) :
    Sound s' where
  ring := hring
  steady := hsteady
  finds := hfinds
  runs := hruns
  owned := by
    rw [hfrontend]
    intro thread c hc
    rw [hheap]
    exact h.owned thread c hc
  alone := by
    rw [hfrontend]
    exact h.alone
  fresh := by
    rw [hfrontend]
    intro thread c hc
    obtain ⟨hhand', hdone'⟩ := h.fresh thread c hc
    refine ⟨fun hmem => hhand' (hhand.subset hmem), fun hd => ?_⟩
    rcases hdone c hd with hd | ⟨hmem, -⟩
    · exact hdone' hd
    · exact hhand' hmem
  live := by
    intro c hc
    obtain ⟨hsome, hdone'⟩ := h.live c (hhand.subset hc)
    refine ⟨by rw [hheap, hsome], fun hd => ?_⟩
    rcases hdone c hd with hd | ⟨-, hnot⟩
    · exact hdone' hd
    · exact hnot hc
  nodup := h.nodup.sublist hhand
  awaited := by
    rw [hfrontend]
    exact fun c hc => h.awaited c (hhand.subset hc)

/-- A step of a frontend thread moves it to `place` and leaves the others alone. -/
theorem Sound.frontend {s' : Client Thread File} (h : Sound s) {thread : Thread} {place : Frontend}
    (hfrontend : s'.frontend = Function.update s.frontend thread place)
    (hring : RingOk s'.commands)
    (hnetwork : s'.network = s.network) (hcmd : s'.cmd = s.cmd)
    (hfinds : s'.network = .popping → pending s'.commands ≠ [])
    (hplace : ∀ c, commandOf place = some c → (s'.heap c).isSome = true ∧
      ∀ t, t ≠ thread → commandOf (s.frontend t) ≠ some c)
    (hfresh : ∀ c, place = .created c → c ∉ inHand s' ∧ ¬ IsDone s' c)
    (hothers : ∀ t c, t ≠ thread → commandOf (s.frontend t) = some c →
      (s'.heap c).isSome = true ∧ (IsDone s' c → IsDone s c) ∧ (c ∈ inHand s' → c ∈ inHand s))
    (hlive : ∀ c ∈ inHand s', (s'.heap c).isSome = true ∧ ¬ IsDone s' c)
    (hnodup : (inHand s').Nodup)
    (hawaited : ∀ c ∈ inHand s', (place = .pushed c ∨ place = .waiting c) ∨
      ∃ t, t ≠ thread ∧ (s.frontend t = .pushed c ∨ s.frontend t = .waiting c)) :
    Sound s' where
  ring := hring
  steady := by
    rw [hnetwork, hcmd]
    exact h.steady
  finds := hfinds
  runs := by
    rw [hnetwork]
    exact h.runs
  owned := by
    intro t c ht
    rw [hfrontend, Function.update_apply] at ht
    split_ifs at ht with hthread
    · exact (hplace c ht).1
    · exact (hothers t c hthread ht).1
  alone := by
    intro t t' c ht ht'
    rw [hfrontend, Function.update_apply] at ht ht'
    split_ifs at ht ht' with hthread hthread' hthread'
    · rw [hthread, hthread']
    · exact absurd ht' ((hplace c ht).2 t' hthread')
    · exact absurd ht ((hplace c ht').2 t hthread)
    · exact h.alone t t' c ht ht'
  fresh := by
    intro t c ht
    rw [hfrontend, Function.update_apply] at ht
    split_ifs at ht with hthread
    · exact hfresh c ht
    · obtain ⟨hhand, hdone⟩ := h.fresh t c ht
      obtain ⟨-, hdone', hhand'⟩ := hothers t c hthread (by rw [ht, commandOf])
      exact ⟨mt hhand' hhand, mt hdone' hdone⟩
  live := hlive
  nodup := hnodup
  awaited := by
    intro c hc
    rcases hawaited c hc with hplace | ⟨t, hthread, ht⟩
    · exact ⟨thread, by rwa [hfrontend, Function.update_self]⟩
    · exact ⟨t, by rwa [hfrontend, Function.update_of_ne hthread]⟩

section Store

variable (h : Sound s) {c : ℕ} (command : Option (Command File)) (thread : Thread)
  (place : Frontend)
include h

theorem Sound.owned_store {t : Thread} {c' : ℕ} (ht : commandOf (s.frontend t) = some c')
    (hne : c' ≠ c) :
    (((s.store c command).setFrontend thread place).heap c').isSome = true ∧
      (IsDone ((s.store c command).setFrontend thread place) c' → IsDone s c') := by
  refine ⟨?_, (isDone_store_of_ne s c command hne).mp⟩
  simpa [Client.setFrontend, heap_store, hne] using h.owned t c' ht

theorem Sound.live_store {c' : ℕ} (hc' : c' ∈ inHand s) (hne : c' ≠ c) :
    (((s.store c command).setFrontend thread place).heap c').isSome = true ∧
      ¬ IsDone ((s.store c command).setFrontend thread place) c' := by
  obtain ⟨hsome, hdone⟩ := h.live c' hc'
  refine ⟨?_, mt (isDone_store_of_ne s c command hne).mp hdone⟩
  simpa [Client.setFrontend, heap_store, hne] using hsome

end Store

theorem Sound.create (h : Sound s) (thread : Thread) {c : ℕ} {command : Command File}
    (hfree : s.heap c = none) (hnew : command.done = false)
    (hout : s.frontend thread = .outside) :
    Sound ((s.store c (some command)).setFrontend thread (.created c)) := by
  have hne : ∀ t c', commandOf (s.frontend t) = some c' → c' ≠ c := by
    rintro t _ ht rfl
    simpa [hfree] using h.owned t _ ht
  have hhand : ∀ c' ∈ inHand s, c' ≠ c := by
    rintro _ hc rfl
    simpa [hfree] using (h.live _ hc).1
  refine h.frontend rfl h.ring rfl rfl h.finds ?_ ?_ ?_ ?_ h.nodup ?_
  · rintro _ ⟨⟩
    exact ⟨by simp [Client.setFrontend, heap_store], fun t _ ht => hne t _ ht rfl⟩
  · rintro _ ⟨⟩
    refine ⟨fun hc => hhand _ hc rfl, ?_⟩
    rintro ⟨command', hc, hdone⟩
    simp only [Client.setFrontend, heap_store, if_true, Option.some.injEq] at hc
    rw [← hc, hnew] at hdone
    cases hdone
  · intro t c' _ ht
    obtain ⟨hsome, hdone⟩ := h.owned_store (some command) thread (.created c) ht (hne t c' ht)
    exact ⟨hsome, hdone, id⟩
  · exact fun c' hc' => h.live_store (some command) thread _ hc' (hhand c' hc')
  · intro c' hc'
    obtain ⟨t, ht⟩ := h.awaited c' hc'
    refine .inr ⟨t, ?_, ht⟩
    rintro rfl
    simp [hout] at ht

omit [DecidableEq Thread] in
/-- Where `queue_push` puts a command: behind the others, or nowhere. -/
theorem inHand_push (h : Sound s) (c : ℕ) :
    inHand { s with commands := (queuePush s.commands c).2 } =
      if s.commands.count = maxCommandsPending then inHand s else inHand s ++ [c] := by
  split_ifs with hfull
  · rw [queuePush_full hfull]
  · change handled s ++ pending (queuePush s.commands c).2 = _
    rw [pending_queuePush h.ring hfull, inHand, List.append_assoc]

theorem Sound.push (h : Sound s) {thread : Thread} {c : ℕ} (hc : s.frontend thread = .created c) :
    Sound ({ s with commands := (queuePush s.commands c).2 }.setFrontend thread (.pushed c)) := by
  have hheld : commandOf (s.frontend thread) = some c := by rw [hc, commandOf]
  obtain ⟨hnot, hdone⟩ := h.fresh thread c hc
  have hmem : ∀ c', c' ∈ inHand { s with commands := (queuePush s.commands c).2 } →
      c' ∈ inHand s ∨ c' = c := by
    intro c' hc'
    rw [inHand_push h] at hc'
    split_ifs at hc'
    · exact .inl hc'
    · simpa using hc'
  have hother : ∀ t, t ≠ thread → commandOf (s.frontend t) ≠ some c := fun t hthread ht =>
    hthread (h.alone t thread c ht hheld)
  refine h.frontend rfl (ringOk_queuePush h.ring c) rfl rfl ?_ ?_ ?_ ?_ ?_ ?_ ?_
  · intro hpop
    by_cases hfull : s.commands.count = maxCommandsPending
    · simpa [Client.setFrontend, queuePush_full hfull] using h.finds hpop
    · simp [Client.setFrontend, pending_queuePush h.ring hfull]
  · rintro _ ⟨⟩
    exact ⟨h.owned thread c hheld, hother⟩
  · rintro _ ⟨⟩
  · intro t c' hthread ht
    refine ⟨h.owned t c' ht, id, fun hc' => (hmem c' hc').resolve_right ?_⟩
    rintro rfl
    exact hother t hthread ht
  · intro c' hc'
    rcases hmem c' hc' with hc' | rfl
    · exact h.live c' hc'
    · exact ⟨h.owned thread c' hheld, hdone⟩
  · rw [inHand_setFrontend, inHand_push h]
    split_ifs
    · exact h.nodup
    · rw [← List.concat_eq_append]
      exact h.nodup.concat hnot
  · intro c' hc'
    rcases hmem c' hc' with hc' | rfl
    · obtain ⟨t, ht⟩ := h.awaited c' hc'
      refine .inr ⟨t, ?_, ht⟩
      rintro rfl
      simp [hc] at ht
    · exact .inl (.inl rfl)

theorem Sound.wait (h : Sound s) {thread : Thread} {c : ℕ}
    (hc : s.frontend thread = .pushed c ∨ s.frontend thread = .waiting c) :
    Sound (s.setFrontend thread (.waiting c)) := by
  have hheld := commandOf_awaiting hc
  refine h.frontend rfl h.ring rfl rfl h.finds ?_ ?_ ?_ h.live h.nodup ?_
  · rintro _ ⟨⟩
    exact ⟨h.owned thread c hheld, fun t hthread ht => hthread (h.alone t thread c ht hheld)⟩
  · rintro _ ⟨⟩
  · exact fun t c' _ ht => ⟨h.owned t c' ht, id, id⟩
  · intro c' hc'
    obtain ⟨t, ht⟩ := h.awaited c' hc'
    by_cases hthread : t = thread
    · subst hthread
      have heq := commandOf_awaiting ht
      rw [hheld] at heq
      cases heq
      exact .inl (.inr rfl)
    · exact .inr ⟨t, hthread, ht⟩

theorem Sound.leave (h : Sound s) {thread : Thread} {c : ℕ}
    (hheld : commandOf (s.frontend thread) = some c) (hdone : IsDone s c) :
    Sound ((s.store c none).setFrontend thread .outside) := by
  have hhand : ∀ c' ∈ inHand s, c' ≠ c := by
    rintro _ hc rfl
    exact (h.live _ hc).2 hdone
  have hne : ∀ t c', t ≠ thread → commandOf (s.frontend t) = some c' → c' ≠ c := by
    rintro t _ hthread ht rfl
    exact hthread (h.alone t thread _ ht hheld)
  refine h.frontend rfl h.ring rfl rfl h.finds ?_ ?_ ?_ ?_ h.nodup ?_
  · rintro _ ⟨⟩
  · rintro _ ⟨⟩
  · intro t c' hthread ht
    obtain ⟨hsome, hdone'⟩ := h.owned_store none thread .outside ht (hne t c' hthread ht)
    exact ⟨hsome, hdone', id⟩
  · exact fun c' hc' => h.live_store none thread _ hc' (hhand c' hc')
  · intro c' hc'
    obtain ⟨t, ht⟩ := h.awaited c' hc'
    refine .inr ⟨t, ?_, ht⟩
    rintro rfl
    have heq := commandOf_awaiting ht
    rw [hheld] at heq
    cases heq
    exact hhand _ hc' rfl

omit [DecidableEq Thread] in
/-- While no command is handled, the first one of the queue can be taken over. -/
theorem inHand_pop (h : Sound s) (hpop : s.network = .popping) :
    inHand { s with
        commands := (queuePop s.commands).2
        cmd := (queuePop s.commands).1.or s.cmd
        network := .handling } = inHand s ∧
      ((queuePop s.commands).1.or s.cmd).isSome = true := by
  obtain ⟨hfirst, hrest⟩ := pending_queuePop h.ring
  have hpending := h.finds hpop
  simp only [inHand, handled, hpop, hfirst, hrest]
  cases hp : pending s.commands with
  | nil => exact absurd hp hpending
  | cons c rest => simp

omit [DecidableEq Thread] in
theorem Sound.not_crash (h : Sound s) (hnet : s.network = .handling ∨ s.network = .signalling) :
    ¬ ∀ c, s.cmd = some c → s.heap c = none := by
  intro hcmd
  obtain ⟨c, hc⟩ := Option.isSome_iff_exists.mp (h.steady hnet)
  have hhand : c ∈ inHand s := by
    rcases hnet with hnet | hnet <;> simp [inHand, handled, hnet, hc]
  have hsome := (h.live c hhand).1
  rw [hcmd c hc] at hsome
  cases hsome

theorem sound_change {s' : Client Thread File} (h : Sound s) (hchange : Change s move s') :
    Sound s' := by
  cases hchange with
  | nothing => exact h
  | create thread c command hfree hnew hout => exact h.create thread hfree hnew hout
  | push thread c _ hc => exact h.push hc
  | wait thread c hc => exact h.wait hc
  | leave thread c hheld hdone => exact h.leave hheld hdone
  | enter hnet =>
      exact h.network rfl (fun _ => rfl) (by simp [inHand, handled, hnet]) (fun _ => .inl) h.ring
        (by simp) (by simp) (by simp)
  | find hnet hcount =>
      refine h.network rfl (fun _ => rfl) (by simp [inHand, handled, hnet]) (fun _ => .inl) h.ring
        (by simp) (fun _ => ?_) (by simp)
      rw [Ne, pending_eq_nil_iff h.ring]
      exact ne_of_gt hcount
  | finish hnet =>
      exact h.network rfl (fun _ => rfl) (by simp [inHand, handled, hnet]) (fun _ => .inl) h.ring
        (by simp) (by simp) (by simp)
  | pop hnet =>
      obtain ⟨hhand, hsome⟩ := inHand_pop h hnet
      exact h.network rfl (fun _ => rfl) (by rw [hhand]) (fun _ => .inl) (ringOk_queuePop h.ring)
        (fun _ => hsome) (by simp) (by simp)
  | drop _ c command _ hnet hcmd hc hfile htype =>
      exact h.network rfl (fun _ => rfl) (by simp [inHand, handled, hnet]) (fun _ => .inl) h.ring
        (by simp) (by simp) (by simp)
  | handle c command command' hnet hcmd hc hsame =>
      refine h.network rfl (isSome_heap_store s c hc command')
        (by simp [inHand, handled, hnet, Client.store]) (fun c' hd => .inl ?_) h.ring
        (by simp [Client.store, hcmd]) (by simp) (by simp)
      exact (isDone_store hc hsame c').mp hd
  | signal c command hnet hcmd hc =>
      have hhand : inHand s = c :: pending s.commands := by simp [inHand, handled, hnet, hcmd]
      have hnodup := h.nodup
      rw [hhand, List.nodup_cons] at hnodup
      refine h.network rfl (isSome_heap_store s c hc _) ?_ (fun c' hd => ?_) h.ring (by simp)
        (by simp) (by simp)
      · rw [hhand]
        exact List.sublist_cons_self ..
      · by_cases hc' : c' = c
        · subst hc'
          exact .inr ⟨by rw [hhand]; exact List.mem_cons_self, hnodup.1⟩
        · exact .inl ((isDone_store_of_ne s c _ hc').mp hd)
  | crash hnet hcmd => exact absurd hcmd (h.not_crash hnet)

theorem sound_run (q : CommandQueue ℕ) (mutexInit : ℤ) (moves : List (Move Thread File)) :
    Sound (clientStep.run (Client.initial q mutexInit) moves).2 := by
  have hstep : ∀ (s : Client Thread File) (move : Move Thread File),
      Sound s → True → Sound (clientStep s move).2 :=
    fun s move hs _ => sound_change hs (change_clientStep s move)
  exact Machine.invariant hstep (sound_initial q mutexInit) Machine.meets_true

/-! ### Commands that are not dropped -/

/-- The commands that somebody waits for, or is about to, are in hand or done. -/
def Found (s : Client Thread File) : Prop :=
  ∀ thread c, s.frontend thread = .pushed c ∨ s.frontend thread = .waiting c →
    c ∈ inHand s ∨ IsDone s c

/-- A frontend thread keeps the commands found if it does so for those of the other threads,
and its own one is found after it. -/
theorem Found.frontend {s' : Client Thread File} (hfound : Found s) {thread : Thread}
    {place : Frontend} (hfrontend : s'.frontend = (s.setFrontend thread place).frontend)
    (hown : ∀ c, place = .pushed c ∨ place = .waiting c → c ∈ inHand s' ∨ IsDone s' c)
    (hothers : ∀ t c, t ≠ thread → commandOf (s.frontend t) = some c →
      c ∈ inHand s ∨ IsDone s c → c ∈ inHand s' ∨ IsDone s' c) : Found s' := by
  intro t c ht
  rw [hfrontend, frontend_setFrontend] at ht
  split_ifs at ht with hthread
  · exact hown c ht
  · exact hothers t c hthread (commandOf_awaiting ht) (hfound t c ht)

theorem found_change {s' : Client Thread File} (h : Sound s) (hfound : Found s)
    (hok : DropsNothing s move) (hchange : Change s move s') : Found s' := by
  cases hchange with
  | nothing => exact hfound
  | create thread c command hfree hnew hout =>
      refine hfound.frontend rfl (by simp) fun t c' _ ht => ?_
      have hc' : c' ≠ c := by
        rintro rfl
        simpa [hfree] using h.owned t _ ht
      rw [isDone_setFrontend, isDone_store_of_ne s c _ hc']
      exact id
  | push thread c hmove hc =>
      subst hmove
      refine hfound.frontend rfl (fun c' heq => ?_) fun t c' _ _ hc' => ?_
      · cases commandOf_awaiting heq
        rw [inHand_setFrontend, inHand_push h, if_neg (hok c hc)]
        exact .inl (List.mem_append_right _ List.mem_cons_self)
      · rw [inHand_setFrontend, inHand_push h, if_neg (hok c hc)]
        exact hc'.imp_left (List.mem_append_left _)
  | wait thread c hc =>
      refine hfound.frontend rfl (fun c' heq => ?_) fun _ _ _ _ => id
      cases commandOf_awaiting heq
      exact hfound thread c hc
  | leave thread c hheld hdone =>
      refine hfound.frontend rfl (by simp) fun t c' hthread ht => ?_
      have hc' : c' ≠ c := by
        rintro rfl
        exact hthread (h.alone t thread _ ht hheld)
      rw [isDone_setFrontend, isDone_store_of_ne s c _ hc']
      exact id
  | enter hnet | find hnet _ | finish hnet =>
      intro t c' ht
      refine (hfound t c' ht).imp_left fun hhand => ?_
      simpa [inHand, handled, hnet] using hhand
  | pop hnet =>
      intro t c' ht
      rw [(inHand_pop h hnet).1]
      exact hfound t c' ht
  | drop _ c command hmove hnet hcmd hc hfile htype =>
      subst hmove
      exact absurd hfile (hok c command hnet hcmd hc htype)
  | handle c command command' hnet hcmd hc hsame =>
      intro t c' ht
      have hhand : inHand { s.store c (some command') with network := .signalling } = inHand s := by
        simp [inHand, handled, hnet, Client.store]
      rw [hhand]
      exact (hfound t c' ht).imp_right (isDone_store hc hsame c').mpr
  | signal c command hnet hcmd hc =>
      intro t c' ht
      by_cases hc' : c' = c
      · exact .inr ⟨{ command with done := true }, by simp [heap_store, hc'], rfl⟩
      · refine (hfound t c' ht).imp (fun hhand => ?_) (isDone_store_of_ne s c _ hc').mpr
        simpa [inHand, handled, hnet, hcmd, hc', Client.store] using hhand
  | crash hnet hcmd => exact absurd hcmd (h.not_crash hnet)

/-- A command that is out of hand and not done is waited for in vain. -/
theorem lost_of_awaiting (h : Sound s) {thread : Thread} {c : ℕ}
    (hc : s.frontend thread = .pushed c ∨ s.frontend thread = .waiting c) (hhand : c ∉ inHand s)
    (hdone : ¬ IsDone s c) : ¬ NoneLost (clientStep s (.frontend thread)).2 := by
  obtain ⟨command, hcommand⟩ := Option.isSome_iff_exists.mp (h.owned thread c (commandOf_awaiting hc))
  have hfalse : command.done = false := by
    by_contra hd
    exact hdone ⟨command, hcommand, by simpa using hd⟩
  have hstep : (clientStep s (.frontend thread)).2 = s.setFrontend thread (.waiting c) := by
    rcases hc with hc | hc <;> simp [clientStep, frontendStep, hc, awaitDone, hcommand, hfalse]
  rw [hstep]
  intro hnone
  have hwaits := hnone thread c (by rw [frontend_setFrontend, if_pos rfl])
  rw [inHand, List.mem_append, not_or] at hhand
  rcases hwaits with hmem | hmem | hd
  · exact hhand.2 hmem
  · exact hhand.1 hmem
  · exact hdone hd

/-- A move that drops a command leaves a thread behind that waits for it. -/
theorem lost_of_drops (h : Sound s) (hdrops : ¬ DropsNothing s move) :
    ∃ thread, ¬ NoneLost (clientStep (clientStep s move).2 (.frontend thread)).2 := by
  have hsound := sound_change h (change_clientStep s move)
  cases move with
  | call => exact absurd trivial hdrops
  | frontend thread =>
      simp only [DropsNothing, not_forall, not_not] at hdrops
      obtain ⟨c, hc, hfull⟩ := hdrops
      obtain ⟨hhand, hdone⟩ := h.fresh thread c hc
      have hstep : (clientStep s (.frontend thread)).2 = s.setFrontend thread (.pushed c) := by
        simp [clientStep, frontendStep, hc, queuePush_full hfull]
      rw [hstep] at hsound ⊢
      exact ⟨thread, lost_of_awaiting hsound (.inl (by rw [frontend_setFrontend, if_pos rfl]))
        hhand hdone⟩
  | network rpcResult =>
      simp only [DropsNothing, not_forall, not_not] at hdrops
      obtain ⟨c, command, hnet, hcmd, hc, htype, hfile⟩ := hdrops
      have hhand : inHand s = c :: pending s.commands := by simp [inHand, handled, hnet, hcmd]
      have hmem : c ∈ inHand s := by rw [hhand]; exact List.mem_cons_self
      have hnodup := h.nodup
      rw [hhand, List.nodup_cons] at hnodup
      have hstep : (clientStep s (.network rpcResult)).2 = { s with network := .testing } := by
        rcases htype with htype | htype <;>
          simp [clientStep, networkStep, hnet, hcmd, hc, dispatch, htype, hfile]
      obtain ⟨thread, ht⟩ := h.awaited c hmem
      rw [hstep] at hsound ⊢
      exact ⟨thread, lost_of_awaiting hsound ht (by simpa [inHand, handled] using hnodup.1)
        (h.live c hmem).2⟩

omit [DecidableEq Thread] in
theorem noneLost_of_found (hfound : Found s) : NoneLost s := by
  intro thread c hc
  have hin := hfound thread c (.inr hc)
  rw [inHand, List.mem_append] at hin
  tauto

/-- No command is lost in a run that does not reach one of the two places, and one is
lost as soon as a run reaches one of them. -/
theorem noneLost_run (q : CommandQueue ℕ) (mutexInit : ℤ) (moves : List (Move Thread File))
    (h : clientStep.Meets DropsNothing (Client.initial q mutexInit) moves) :
    clientStep.Always NoneLost (Client.initial q mutexInit) moves ∧
      ∀ move, ¬ DropsNothing (clientStep.run (Client.initial q mutexInit) moves).2 move →
        ∃ thread, ¬ clientStep.Always NoneLost (Client.initial q mutexInit)
          (moves ++ [move, .frontend thread]) := by
  refine ⟨?_, fun move hdrops => ?_⟩
  · have hstep : ∀ (s : Client Thread File) (move : Move Thread File), Sound s ∧ Found s →
        DropsNothing s move → Sound (clientStep s move).2 ∧ Found (clientStep s move).2 := by
      intro s move hs hok
      have hchange := change_clientStep s move
      exact ⟨sound_change hs.1 hchange, found_change hs.1 hs.2 hok hchange⟩
    exact Machine.always_of_invariant hstep (fun s hs => noneLost_of_found hs.2)
      ⟨sound_initial q mutexInit, by simp [Found, Client.initial]⟩ h
  · obtain ⟨thread, hlost⟩ := lost_of_drops (sound_run q mutexInit moves) hdrops
    refine ⟨thread, fun hall => hlost ?_⟩
    have hlast := hall.last
    rwa [Machine.run_append_state] at hlast

end Moves

/-- One thread that asks for the network status and waits until it is there. -/
def statusMoves : List (Move Unit Unit) :=
  [.call () .showNetworkStatus (some 0) 0 0, .frontend (), .frontend (), .network 0, .network 0,
    .network 0, .network 0, .network 0, .frontend ()]

theorem noneLost_run_status :
    clientStep.Always NoneLost (Client.initial ⟨fun _ => 0, 0, 0, 0⟩ 0) statusMoves ∧
      ∀ move, ¬ DropsNothing
          (clientStep.run (Client.initial ⟨fun _ => 0, 0, 0, 0⟩ 0) statusMoves).2 move →
        ∃ thread, ¬ clientStep.Always NoneLost (Client.initial ⟨fun _ => 0, 0, 0, 0⟩ 0)
          (statusMoves ++ [move, .frontend thread]) := by
  refine noneLost_run ⟨fun _ => 0, 0, 0, 0⟩ 0 statusMoves ?_
  simp [statusMoves, DropsNothing, clientStep, submit, frontendStep, awaitDone, networkStep,
    dispatch, commandInit, Client.initial, Client.store, Client.setFrontend, FrontendCall.fill,
    queueInit, queuePush, queuePop, maxCommandsPending]
  rintro c command rfl hc
  cases hc
  simp

/-- One thread uploads no file, and the network thread goes back to its loop. -/
def uploadNothing : List (Move Unit Unit) :=
  [.call () (.uploadFile none) (some 0) 0 0, .frontend (), .frontend (), .network 0, .network 0,
    .network 0, .network 0]

/-- Eleven threads ask for the network status before the network thread looks. -/
def elevenAtOnce : List (Move ℕ Unit) :=
  (List.range 11).flatMap fun i =>
    [.call i .showNetworkStatus (some i) 0 0, .frontend i, .frontend i]

theorem not_noneLost_uploadNothing :
    ¬ clientStep.Always NoneLost (Client.initial ⟨fun _ => 0, 0, 0, 0⟩ 0) uploadNothing ∧
      ¬ clientStep.Always NoneLost (Client.initial ⟨fun _ => 0, 0, 0, 0⟩ 0) elevenAtOnce := by
  constructor
  · intro h
    rcases h.last () 0 rfl with hmem | hmem | ⟨command, hc, hdone⟩
    · exact absurd hmem (by decide)
    · exact absurd hmem (by decide)
    · cases hc
      cases hdone
  · intro h
    rcases h.last 10 10 (by decide) with hmem | hmem | ⟨command, hc, hdone⟩
    · exact absurd hmem (by decide)
    · exact absurd hmem (by decide)
    · have hheap : (clientStep.run (Client.initial ⟨fun _ => 0, 0, 0, 0⟩ 0) elevenAtOnce).2.heap 10 =
          some ⟨.cmdShowStatus, none, false, 0⟩ := by decide
      rw [hheap] at hc
      cases hc
      cases hdone

end Kademlia.Commands
