import Mathlib.Data.List.DropRight
import PacketWire.Proofs.Endpoint.CallByCall

/-!
# Copies are exact

The calls of a copy say what it was handed (`given`), what the sink took of it (`accepted`), and how
much of that a granted flush has passed on (`passedOn`). `Due` says when each call is made.
A `Copying` is a copy at work: it is polled, cancelled or not, while anything may happen at the far
ends. A poll that is cancelled ends the copy at once, unless the sink is being shut down.
-/

namespace PacketWire.Copy

/-! ## What calls come to -/

def Call.got : Call → Bytes
  | .read (.ready (.ok bs)) => bs
  | _ => []

def Call.taken : Call → Bytes
  | .write bs (.ready (.ok n)) => bs.take n
  | _ => []

def Call.passesOn : Call → Bool
  | .flush (.ready (.ok ())) => true
  | _ => false

def given (calls : List Call) : Bytes := calls.flatMap Call.got

def accepted (calls : List Call) : Bytes := calls.flatMap Call.taken

/-- What the sink had taken when it last granted a flush. -/
def passedOn (calls : List Call) : Bytes := accepted (calls.rdropWhile fun x => !x.passesOn)

def Ended (calls : List Call) : Prop := .read (.ready (.ok [])) ∈ calls

@[simp] theorem given_concat (calls : List Call) (x : Call) :
    given (calls ++ [x]) = given calls ++ x.got := by
  simp [given]

@[simp] theorem accepted_concat (calls : List Call) (x : Call) :
    accepted (calls ++ [x]) = accepted calls ++ x.taken := by
  simp [accepted]

theorem passedOn_concat (calls : List Call) (x : Call) :
    passedOn (calls ++ [x]) = if x.passesOn then accepted (calls ++ [x]) else passedOn calls := by
  unfold passedOn
  cases hx : x.passesOn
  · rw [List.rdropWhile_concat_pos _ _ _ (by simp [hx])]
    rfl
  · rw [List.rdropWhile_concat_neg _ _ _ (by simp [hx])]
    rfl

@[simp] theorem ended_concat (calls : List Call) (x : Call) :
    Ended (calls ++ [x]) ↔ Ended calls ∨ x = .read (.ready (.ok [])) := by
  simp [Ended, eq_comm]

/-- When a call is made: the source is read once all it handed out is passed on; the sink is offered
just what it has not taken, and flushed or shut down when it has taken everything. -/
def Due (before : List Call) : Call → Prop
  | .read _ => passedOn before = given before ∧ ¬ Ended before
  | .write bs _ => bs ≠ [] ∧ given before = accepted before ++ bs
  | .flush _ => accepted before = given before
  | .shutdown _ => passedOn before = given before ∧ Ended before

/-- Whether the sink has taken what the source handed out, up to a piece no longer than a
chunk. -/
def Within (chunk : Nat) (calls : List Call) : Prop :=
  accepted calls <+: given calls ∧ (given calls).length ≤ (accepted calls).length + max chunk 1

def Running (calls : List Call) : Prop := ¬ Ended calls ∧ ∀ a, .shutdown a ∉ calls

/-- Whether everything that was handed out is taken and passed on. -/
def Delivered (calls : List Call) : Prop :=
  accepted calls = given calls ∧ passedOn calls = given calls

/-- Where a copy that reads up to `chunk` bytes at once stands after the calls that it made. -/
inductive Stands (chunk : Nat) (calls : List Call) : Copy → Prop where
  | reading {total : Nat} : Running calls → Delivered calls → (given calls).length = total →
      Stands chunk calls { chunk, total, phase := .reading }
  | writing {total n : Nat} {bs : Bytes} : Running calls → given calls = accepted calls ++ bs →
      bs.length ≤ max chunk 1 → (given calls).length = total + n →
      Stands chunk calls { chunk, total, phase := .writing n bs }
  | flushing {total n : Nat} : Running calls → accepted calls = given calls →
      (given calls).length = total + n → Stands chunk calls { chunk, total, phase := .flushing n }
  | closing {total : Nat} : Ended calls → Delivered calls → (given calls).length = total →
      Stands chunk calls { chunk, total, phase := .closing }

/-- What the calls up to the end of a poll say of where it ends. -/
def Settled (chunk : Nat) (calls : List Call) : Progress Copy (Except WireError Nat) → Prop
  | .waiting c => Stands chunk calls c ∧
      (calls = [] ∧ c.phase = .reading ∨ calls.getLast? = some c.awaited)
  | .done (.ok n) => (∃ before, calls = before ++ [.shutdown (.ready (.ok ()))]) ∧
      accepted calls = given calls ∧ n = (given calls).length
  | .done (.error e) => (∀ a, .shutdown a ∉ calls) ∨
      ∃ before cause, calls = before ++ [.shutdown (.ready (.error cause))] ∧ e = .io cause

theorem Running.concat {calls : List Call} {x : Call} (h : Running calls)
    (hread : x ≠ .read (.ready (.ok []))) (hshut : ∀ a, x ≠ .shutdown a) :
    Running (calls ++ [x]) := by
  refine ⟨by simp [h.1, hread], fun a ha => ?_⟩
  obtain ha | ha := List.mem_append.mp ha
  · exact h.2 a ha
  · exact hshut a (List.mem_singleton.mp ha).symm

theorem Delivered.concat {calls : List Call} {x : Call} (h : Delivered calls) (hgot : x.got = [])
    (htaken : x.taken = []) (hpasses : x.passesOn = false) : Delivered (calls ++ [x]) := by
  unfold Delivered
  rw [given_concat, accepted_concat, passedOn_concat, hgot, htaken, hpasses, List.append_nil,
    List.append_nil]
  exact h

theorem Within.concat {chunk : Nat} {calls : List Call} {x : Call} (h : Within chunk calls)
    (hgot : x.got = []) (htaken : x.taken = []) : Within chunk (calls ++ [x]) := by
  unfold Within
  rw [given_concat, accepted_concat, hgot, htaken, List.append_nil, List.append_nil]
  exact h

section

variable {σ κ : Type} [Source σ] [Sink κ] {chunk : Nat} {calls : List Call} {c c' : Copy} {s s' : σ}
  {k k' : κ} {x : Call} {p : Progress Copy (Except WireError Nat)}

omit [Source σ] [Sink κ] in
theorem Stands.within (h : Stands chunk calls c) : Within chunk calls := by
  cases h with
  | reading _ hdel _ => exact ⟨hdel.1 ▸ List.prefix_rfl, by rw [hdel.1]; omega⟩
  | writing _ hsum hbs _ =>
    refine ⟨⟨_, hsum.symm⟩, ?_⟩
    rw [hsum, List.length_append]
    omega
  | flushing _ hall _ => exact ⟨hall ▸ List.prefix_rfl, by rw [hall]; omega⟩
  | closing _ hdel _ => exact ⟨hdel.1 ▸ List.prefix_rfl, by rw [hdel.1]; omega⟩

omit [Source σ] [Sink κ] in
theorem Stands.room (h : Stands chunk calls c) : c.room = max chunk 1 := by
  cases h <;> rfl

theorem Stands.due (h : Stands chunk calls c) {t : Turn} (hcall : c.call s k = (x, t, s', k')) :
    Due calls x := by
  cases h with
  | reading hrun hdel _ =>
    cases hcall
    exact ⟨hdel.2, hrun.1⟩
  | @writing total n bs hrun hsum _ _ =>
    cases bs with
    | nil =>
      cases hcall
      exact ((List.append_nil _).symm.trans hsum.symm)
    | cons b bs =>
      cases hcall
      exact ⟨by simp, hsum⟩
  | flushing hrun hall _ =>
    cases hcall
    exact hall
  | closing hended hdel _ =>
    cases hcall
    exact ⟨hdel.2, hended⟩

omit [Source σ] [Sink κ] in
theorem Stands.concat (h : Stands chunk calls c) (hgot : x.got = []) (htaken : x.taken = [])
    (hpasses : x.passesOn = false) (hread : x ≠ .read (.ready (.ok [])))
    (hshut : ∀ a, x = .shutdown a → c.phase = .closing) : Stands chunk (calls ++ [x]) c := by
  have hgiven : given (calls ++ [x]) = given calls := by
    rw [given_concat, hgot, List.append_nil]
  have haccepted : accepted (calls ++ [x]) = accepted calls := by
    rw [accepted_concat, htaken, List.append_nil]
  cases h with
  | reading hrun hdel htotal =>
    exact .reading (hrun.concat hread fun a hx => by cases hshut a hx)
      (hdel.concat hgot htaken hpasses) (hgiven ▸ htotal)
  | writing hrun hsum hlength htotal =>
    exact .writing (hrun.concat hread fun a hx => by cases hshut a hx)
      (by rw [hgiven, haccepted, hsum]) hlength (hgiven ▸ htotal)
  | flushing hrun hall htotal =>
    exact .flushing (hrun.concat hread fun a hx => by cases hshut a hx)
      (by rw [hgiven, haccepted, hall]) (hgiven ▸ htotal)
  | closing hended hdel htotal =>
    exact .closing (by simp [hended]) (hdel.concat hgot htaken hpasses) (hgiven ▸ htotal)

omit [Source σ] [Sink κ] in
theorem Stands.flushed {total n : Nat}
    (h : Stands chunk calls { chunk, total, phase := .flushing n }) :
    Stands chunk (calls ++ [.flush (.ready (.ok ()))])
      { chunk, total := total + n, phase := .reading } := by
  cases h with
  | flushing hrun hall htotal =>
    refine .reading (hrun.concat (by simp) (by simp)) ⟨?_, ?_⟩ ?_
    · simpa [Call.got, Call.taken] using hall
    · simpa [passedOn_concat, Call.passesOn, Call.got, Call.taken] using hall
    · simpa [Call.got] using htotal

theorem Stands.onward (h : Stands chunk calls c) (ho : Onward c s k x c' s' k') :
    Stands chunk (calls ++ [x]) c' := by
  cases ho with
  | ended hc hr =>
    cases h with
    | reading hrun hdel htotal =>
      exact .closing (by simp) (hdel.concat rfl rfl rfl) (by simpa [Call.got] using htotal)
    | _ => cases hc
  | @fetched b bs s' hc hr =>
    cases h with
    | reading hrun hdel htotal =>
      refine .writing (hrun.concat (by simp) (by simp)) ?_ (Source.length_le hr) ?_
      · simp [Call.got, Call.taken, hdel.1]
      · simp [Call.got, htotal]
    | _ => cases hc
  | disturbed hc hw hk =>
    cases h with
    | writing hrun hsum hlength htotal =>
      cases hc
      exact (Stands.writing hrun hsum hlength htotal).concat rfl rfl rfl (by simp) (by simp)
    | _ => cases hc
  | wrote hc hw =>
    cases h with
    | writing hrun hsum hlength htotal =>
      cases hc
      refine .writing (hrun.concat (by simp) (by simp)) ?_ ?_ (by simpa [Call.got] using htotal)
      · simpa [Call.got, Call.taken] using hsum
      · rw [List.length_drop]
        omega
    | _ => cases hc
  | flushed hc hf =>
    cases h with
    | writing hrun hsum hlength htotal =>
      obtain hc | hc := hc <;> cases hc
      exact (Stands.flushing hrun ((List.append_nil _).symm.trans hsum.symm) htotal).flushed
    | flushing hrun hall htotal =>
      obtain hc | hc := hc <;> cases hc
      exact (Stands.flushing hrun hall htotal).flushed
    | _ => obtain hc | hc := hc <;> cases hc

omit [Source σ] [Sink κ] in
theorem Stands.waits (h : Stands chunk calls c) :
    Within chunk (calls ++ [c.awaited]) ∧ Settled chunk (calls ++ [c.awaited]) (.waiting c) := by
  have hstands : Stands chunk (calls ++ [c.awaited]) c := by
    unfold awaited
    split <;> rename_i hc
    · exact h.concat rfl rfl rfl (by simp) (by simp)
    · exact h.concat rfl rfl rfl (by simp) (by simp)
    · exact h.concat rfl rfl rfl (by simp) (by simp)
    · exact h.concat rfl rfl rfl (by simp) (by simp [hc])
  exact ⟨hstands.within, hstands, .inr (List.getLast?_concat ..)⟩

omit [Source σ] [Sink κ] in
theorem Stands.running (h : Stands chunk calls c) (hphase : c.phase ≠ .closing) :
    Running calls := by
  cases h with
  | closing => exact absurd rfl hphase
  | _ => assumption

omit [Source σ] [Sink κ] in
/-- A copy that fails has not shut the sink down, unless that is what failed. -/
theorem Stands.fails (h : Stands chunk calls c) (hphase : c.phase ≠ .closing) (hgot : x.got = [])
    (htaken : x.taken = []) (hread : x ≠ .read (.ready (.ok []))) (hshut : ∀ a, x ≠ .shutdown a)
    (e : WireError) :
    Within chunk (calls ++ [x]) ∧ Settled chunk (calls ++ [x]) (.done (.error e)) :=
  ⟨h.within.concat hgot htaken, .inl ((h.running hphase).concat hread hshut).2⟩

omit [Source σ] [Sink κ] in
theorem Stands.halts (h : Stands chunk calls c) (hx : Halts c x p) :
    Within chunk (calls ++ [x]) ∧ Settled chunk (calls ++ [x]) p := by
  induction hx with
  | waits c => exact h.waits
  | written hc _ ih =>
    refine ih ?_
    cases h with
    | writing hrun hsum hlength htotal =>
      cases hc
      exact .flushing hrun ((List.append_nil _).symm.trans hsum.symm) htotal
    | _ => cases hc
  | unread hc => exact h.fails (by simp [hc]) rfl rfl (by simp) (by simp) _
  | unwritten hc => exact h.fails (by simp [hc]) rfl rfl (by simp) (by simp) _
  | stuck hc => exact h.fails (by simp [hc]) rfl rfl (by simp) (by simp) _
  | unflushed hc => exact h.fails (by simp [hc]) rfl rfl (by simp) (by simp) _
  | @unshut c e hc => exact ⟨h.within.concat rfl rfl, .inr ⟨calls, e, rfl, rfl⟩⟩
  | ended hc =>
    refine ⟨h.within.concat rfl rfl, ⟨calls, rfl⟩, ?_⟩
    cases h with
    | closing hended hdel htotal => simp [Call.got, Call.taken, hdel.1, htotal]
    | _ => cases hc

/-! ## Whole polls -/

/-- What holds of the calls of a copy all along. -/
structure History (chunk : Nat) (calls : List Call) : Prop where
  due : ∀ before x, before ++ [x] <+: calls → Due before x
  within : ∀ before, before <+: calls → Within chunk before

omit [Source σ] [Sink κ] in
theorem History.concat (h : History chunk calls) (hdue : Due calls x)
    (hwithin : Within chunk (calls ++ [x])) : History chunk (calls ++ [x]) where
  due before y hy := by
    obtain heq | hy := List.prefix_concat_iff.mp hy
    · obtain ⟨rfl, hxy⟩ := List.append_inj' heq rfl
      cases hxy
      exact hdue
    · exact h.due before y hy
  within before hbefore := by
    obtain rfl | hbefore := List.prefix_concat_iff.mp hbefore
    · exact hwithin
    · exact h.within before hbefore

theorem Stands.trace (h : Stands chunk calls c) (hhistory : History chunk calls) (cancelled : Bool)
    (s : σ) (k : κ) :
    History chunk (calls ++ (c.trace cancelled s k).1) ∧
      Settled chunk (calls ++ (c.trace cancelled s k).1) (c.trace cancelled s k).2.1 := by
  fun_induction Copy.trace cancelled c s k generalizing calls with
  | case1 c s k hcan =>
    rw [List.append_nil]
    exact ⟨hhistory, .inl (h.running hcan.2).2⟩
  | case2 c s k hcan x p s1 k1 hcall =>
    obtain ⟨hwithin, hsettled⟩ := h.halts (halts_of_call hcall)
    exact ⟨hhistory.concat (h.due hcall) hwithin, hsettled⟩
  | case3 c s k hcan x c1 s1 k1 hcall new w htrace ih =>
    have hnext := h.onward (onward_of_call hcall)
    have hrest := ih hnext (hhistory.concat (h.due hcall) hnext.within)
    rwa [htrace, List.append_assoc] at hrest

end

end PacketWire.Copy

namespace PacketWire

/-! ## Copies at work -/

structure Copying (σ κ : Type) where
  progress : Progress Copy (Except WireError Nat)
  source : σ
  sink : κ
  calls : List Copy.Call := []

namespace Copying

/-- What can happen to a copy and its ends. -/
inductive Act (σ κ : Type) where
  | poll (cancelled : Bool)
  | elsewhere (source : σ → σ) (sink : κ → κ)

variable {σ κ : Type} [Source σ] [Sink κ]

omit [Source σ] [Sink κ] in
def start (chunk : Nat) (s : σ) (k : κ) : Copying σ κ :=
  { progress := .waiting { chunk }, source := s, sink := k }

def step (w : Copying σ κ) : Act σ κ → Copying σ κ
  | .poll cancelled =>
    match w.progress with
    | .done _ => w
    | .waiting c =>
      let (progress, source, sink) := c.poll cancelled w.source w.sink
      { progress, source, sink, calls := w.calls ++ (c.trace cancelled w.source w.sink).1 }
  | .elsewhere source sink => { w with source := source w.source, sink := sink w.sink }

def run (acts : List (Act σ κ)) (w : Copying σ κ) : Copying σ κ := acts.foldl step w

/-- What every act keeps. -/
structure Sound (chunk : Nat) (w : Copying σ κ) : Prop where
  history : Copy.History chunk w.calls
  settled : Copy.Settled chunk w.calls w.progress

namespace Sound

variable {chunk : Nat} {w : Copying σ κ}

omit [Source σ] [Sink κ] in
theorem start (chunk : Nat) (s : σ) (k : κ) : (Copying.start chunk s k).Sound chunk where
  history := {
    due := fun before x h => by simp [Copying.start] at h
    within := fun before h => by
      obtain rfl := List.prefix_nil.mp h
      exact ⟨List.prefix_rfl, Nat.zero_le _⟩ }
  settled := by
    refine ⟨.reading ⟨?_, ?_⟩ ⟨rfl, rfl⟩ rfl, .inl ⟨rfl, rfl⟩⟩
    · simp [Copying.start, Copy.Ended]
    · simp [Copying.start]

theorem step (h : w.Sound chunk) (act : Act σ κ) : (w.step act).Sound chunk := by
  cases act with
  | elsewhere source sink => exact ⟨h.history, h.settled⟩
  | poll cancelled =>
    unfold Copying.step
    simp only
    split
    · exact h
    · rename_i c hc
      have hsettled := h.settled
      rw [hc] at hsettled
      obtain ⟨hhistory, hsettled⟩ := hsettled.1.trace h.history cancelled w.source w.sink
      rw [Copy.trace_snd] at hsettled
      exact ⟨hhistory, hsettled⟩

theorem run (h : w.Sound chunk) (acts : List (Act σ κ)) : (w.run acts).Sound chunk := by
  induction acts generalizing w with
  | nil => exact h
  | cons act acts ih => exact ih (h.step act)

end Sound

theorem step_of_waiting {w : Copying σ κ} {c : Copy} (h : w.progress = .waiting c)
    (cancelled : Bool) :
    w.step (.poll cancelled) =
      let (calls, progress, source, sink) := c.trace cancelled w.source w.sink
      { progress, source, sink, calls := w.calls ++ calls } := by
  simp only [step, h, Copy.trace_snd]

/-- The calls that a poll adds are made on the ends as they are. -/
theorem plays_step {chunk : Nat} {w : Copying σ κ} (h : w.Sound chunk) (cancelled : Bool) :
    ∃ calls, (w.step (.poll cancelled)).calls = w.calls ++ calls ∧
      Copy.Plays (max chunk 1) calls (w.source, w.sink)
        ((w.step (.poll cancelled)).source, (w.step (.poll cancelled)).sink) := by
  unfold step
  simp only
  split
  · exact ⟨[], (List.append_nil _).symm, .nil⟩
  · rename_i c hc
    have hstands := h.settled
    rw [hc] at hstands
    have hplays := Copy.plays_trace cancelled c w.source w.sink
    rw [Copy.trace_snd, hstands.1.room] at hplays
    exact ⟨_, rfl, hplays⟩

/-- At each moment the sink has taken what the source handed out, up to a chunk, and each call is
`Due` when it is made. A copy that comes to its end has shut down a sink that took everything. -/
theorem copies_exactly (chunk : Nat) (s : σ) (k : κ) (acts : List (Act σ κ)) :
    let w := (start chunk s k).run acts
    (∀ before x, before ++ [x] <+: w.calls → Copy.Due before x) ∧
      (∀ before, before <+: w.calls → Copy.Within chunk before) ∧
      (∀ n, w.progress = .done (.ok n) →
        (∃ before, w.calls = before ++ [.shutdown (.ready (.ok ()))]) ∧
          Copy.accepted w.calls = Copy.given w.calls ∧ n = (Copy.given w.calls).length) ∧
      (∀ e, w.progress = .done (.error e) →
        (∀ a, .shutdown a ∉ w.calls) ∨
          ∃ before cause, w.calls = before ++ [.shutdown (.ready (.error cause))] ∧ e = .io cause) ∧
      ∀ cancelled, ∃ calls, (w.step (.poll cancelled)).calls = w.calls ++ calls ∧
        Copy.Plays (max chunk 1) calls (w.source, w.sink)
          ((w.step (.poll cancelled)).source, (w.step (.poll cancelled)).sink) := by
  intro w
  have hsound : w.Sound chunk := (Sound.start chunk s k).run acts
  refine ⟨hsound.history.due, hsound.history.within, fun n hn => ?_, fun e he => ?_,
    plays_step hsound⟩
  · have hsettled := hsound.settled
    rwa [hn] at hsettled
  · have hsettled := hsound.settled
    rwa [he] at hsettled

/-- A sink that takes the first of two chunks in pieces; and the same, cancelled inside that
chunk. -/
theorem copies_exactly_piecemeal :
    let source : Script := { reads := [.data [1, 2, 3], .pending, .data [4]] }
    let sink : Script :=
      { writes := [.accept 2, .fail (.ofKind .interrupted), .pending], flushes := [.pending] }
    let w := (start 3 source sink).run
      [.poll false, .elsewhere id id, .poll false, .poll false, .poll false]
    let v := (start 3 source sink).run [.poll false, .poll true]
    (w.progress = .done (.ok 4) ∧ Copy.accepted w.calls = Copy.given w.calls ∧
      4 = (Copy.given w.calls).length) ∧
    (v.progress = .done (.error .cancelled) ∧ v.sink.written = [1, 2] ∧ Copy.Within 3 v.calls ∧
      ∀ a, .shutdown a ∉ v.calls) := by
  intro source sink w v
  have hw : w.progress = .done (.ok 4) := by decide +kernel
  have hv : v.progress = .done (.error .cancelled) := by decide +kernel
  refine ⟨⟨hw, ((copies_exactly 3 source sink _).2.2.1 4 hw).2⟩, hv, by decide +kernel,
    (copies_exactly 3 source sink _).2.1 _ List.prefix_rfl, ?_⟩
  obtain hnone | ⟨_, _, _, he⟩ := (copies_exactly 3 source sink _).2.2.2.1 _ hv
  · exact hnone
  · cases he

/-- A cancelled poll ends the copy and calls nobody, unless the sink is being shut down: then it
asks the sink once more, and waits if it has to. -/
theorem cancelled_unless_closing (chunk : Nat) (s : σ) (k : κ) (acts : List (Act σ κ)) (c : Copy) :
    let w := (start chunk s k).run acts
    w.progress = .waiting c →
      (w.calls = [] ∧ c.phase = .reading ∨ w.calls.getLast? = some c.awaited) ∧
      (c.phase ≠ .closing →
        w.step (.poll true) = { w with progress := .done (.error .cancelled) }) ∧
      (c.phase = .closing →
        w.step (.poll true) = w.step (.poll false) ∧
        (w.step (.poll true)).calls = w.calls ++ [.shutdown (Sink.shutdown w.sink).1] ∧
        (w.step (.poll true)).progress ≠ .done (.error .cancelled) ∧
        ((w.step (.poll true)).progress = .waiting c ↔ (Sink.shutdown w.sink).1 = .pending)) := by
  intro w hc
  have hsettled := ((Sound.start chunk s k).run acts).settled
  rw [show ((start chunk s k).run acts).progress = .waiting c from hc] at hsettled
  refine ⟨hsettled.2, fun hphase => ?_, fun hphase => ?_⟩
  · rw [step_of_waiting hc, Copy.trace_of_cancelled hphase]
    simp only [List.append_nil]
  · have hstep (cancelled : Bool) := step_of_waiting hc cancelled
    simp only [Copy.trace_of_closing hphase] at hstep
    simp only [hstep, true_and, Copy.finish, ← hphase]
    rcases Sink.shutdown w.sink with ⟨_ | _ | _, _⟩ <;> simp

/-- A copy that waits in a flush ends at the poll that is cancelled. -/
theorem cancelled_unless_closing_flushing :
    let w := (start 8 ({ reads := [.data [1]] } : Script) ({ flushes := [.pending] } : Script)).run
      [.poll false]
    w.progress = .waiting { chunk := 8, phase := .flushing 1 } ∧
      (w.step (.poll true)).progress = .done (.error .cancelled) := by
  intro w
  have hw : w.progress = .waiting { chunk := 8, phase := .flushing 1 } := by decide +kernel
  have hstep := (cancelled_unless_closing 8 _ _ [.poll false] _ hw).2.1 (by simp)
  exact ⟨hw, congrArg Copying.progress hstep⟩

/-- A sink that is twice not ready to be shut down: the poll that is cancelled asks it again, and
waits on. -/
theorem shutdown_outlasts_cancelling :
    let w := (start 8 ({ reads := [.data [1]] } : Script)
      ({ shutdowns := [.pending, .pending] } : Script)).step (.poll false)
    w.progress = .waiting { chunk := 8, total := 1, phase := .closing } ∧
      (w.step (.poll true)).progress = .waiting { chunk := 8, total := 1, phase := .closing } := by
  decide +kernel

end Copying

end PacketWire
