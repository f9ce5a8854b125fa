import PacketWire.Proofs.Endpoint.Unfailing
import PacketWire.Proofs.Outbox.Attempts

/-!
# Three ways to encode

A `FrameSender` writes every frame to its sink at once, a `Batcher` stages frames until it is
flushed, and an `Encoder` only fills a buffer. Given the same `Job`s, all three refuse the same
ones, and what they do not refuse comes out as the same bytes. Each of the two writers keeps
`Abreast` of the encoder, step by step.
-/

namespace PacketWire

/-- What a writer is asked to do. -/
inductive Job where
  | item (x : Codec.Item)
  | switch (threshold : Int32)
  | flush
  deriving DecidableEq, Repr

namespace Codec

def verdict (c : Codec) (x : Item) : Except WireError Unit :=
  (c.encodeBody x.body []).1.map fun _ => ()

theorem putItem_append (c : Codec) (out : Bytes) (r : Reserves) (x : Item) :
    ((c.putItem out r x).result.map fun _ => ()) = c.verdict x ∧
      (c.putItem out r x).out = out ++ c.itemFrame x :=
  (c.putItem_alone out r x).imp_left (congrArg (Except.map fun _ => ()))

theorem itemFrame_of_verdict {c : Codec} {x : Item} {e : WireError}
    (h : c.verdict x = .error e) : c.itemFrame x = [] := by
  unfold verdict at h
  cases hx : (c.encodeBody x.body []).1 with
  | error e' => exact itemFrame_of_refused hx
  | ok z =>
    rw [hx] at h
    cases h

end Codec

/-- A codec that fills a buffer. -/
structure Encoder where
  codec : Codec
  out : Bytes := []
  reserves : Reserves

namespace Encoder

def step (e : Encoder) : Job → Except WireError Unit × Encoder
  | .item x =>
    let d := e.codec.putItem e.out e.reserves x
    (d.result.map fun _ => (), { e with out := d.out, reserves := d.reserves })
  | .switch t => (.ok (), { e with codec := e.codec.switch t })
  | .flush => (.ok (), e)

def run : List Job → Encoder → List (Except WireError Unit) × Encoder
  | [], e => ([], e)
  | job :: jobs, e =>
    let (result, e) := e.step job
    let (results, e) := run jobs e
    (result :: results, e)

variable {e : Encoder}

theorem step_item (x : Codec.Item) :
    (e.step (.item x)).1 = e.codec.verdict x ∧ (e.step (.item x)).2.codec = e.codec ∧
      (e.step (.item x)).2.out = e.out ++ e.codec.itemFrame x :=
  ⟨(e.codec.putItem_append e.out e.reserves x).1, rfl,
    (e.codec.putItem_append e.out e.reserves x).2⟩

theorem run_concat (jobs : List Job) (job : Job) (e : Encoder) :
    run (jobs ++ [job]) e =
      ((run jobs e).1 ++ [((run jobs e).2.step job).1], ((run jobs e).2.step job).2) := by
  induction jobs generalizing e with
  | nil => rfl
  | cons j jobs ih => simp only [List.cons_append, run, ih]

theorem out_of_refused {job : Job} {err : WireError} (h : (e.step job).1 = .error err) :
    (e.step job).2.out = e.out := by
  cases job with
  | item x =>
    obtain ⟨hresult, -, hout⟩ := step_item (e := e) x
    rw [hout, Codec.itemFrame_of_verdict (hresult.symm.trans h), List.append_nil]
  | switch t => cases h
  | flush => cases h

end Encoder

/-! ## Writers that are run to the end -/

namespace Job

variable {ω : Type} {R : ω → Encoder → Prop} {w w' : ω} {e : Encoder} {jobs : List Job}
  {results : List (Except WireError Unit)}

/-- Does one job after another. There is no result unless every one of them is done. -/
def run (step : ω → Job → Option (Except WireError Unit × ω)) :
    List Job → ω → Option (List (Except WireError Unit) × ω)
  | [], w => some ([], w)
  | job :: jobs, w =>
    match step w job with
    | none => none
    | some (result, w) =>
      match run step jobs w with
      | none => none
      | some (results, w) => some (result :: results, w)

theorem run_cons {step : ω → Job → Option (Except WireError Unit × ω)} {job : Job}
    (h : run step (job :: jobs) w = some (results, w')) :
    ∃ result w₁ rest, step w job = some (result, w₁) ∧ run step jobs w₁ = some (rest, w') ∧
      results = result :: rest := by
  unfold run at h
  split at h
  · cases h
  · rename_i result w₁ hstep
    split at h
    · cases h
    · rename_i rest w₂ hrun
      cases h
      exact ⟨result, w₁, rest, hstep, hrun, rfl⟩

theorem run_concat {step : ω → Job → Option (Except WireError Unit × ω)} {job : Job}
    (h : run step (jobs ++ [job]) w = some (results, w')) :
    ∃ rest w₁ result, run step jobs w = some (rest, w₁) ∧ step w₁ job = some (result, w') := by
  induction jobs generalizing w results with
  | nil =>
    obtain ⟨result, w₁, rest, hstep, hrun, -⟩ := run_cons h
    cases hrun
    exact ⟨[], w, result, rfl, hstep⟩
  | cons j jobs ih =>
    obtain ⟨first, w₁, rest, hstep, hrun, -⟩ := run_cons h
    obtain ⟨rest', w₂, result, hrun', hlast⟩ := ih hrun
    exact ⟨first :: rest', w₂, result, by simp only [run, hstep, hrun'], hlast⟩

/-- Whether `R` holds on between a writer and an encoder that do the same jobs, with the same
answers. -/
def Steps (R : ω → Encoder → Prop) (step : ω → Job → Option (Except WireError Unit × ω)) : Prop :=
  ∀ w e job result w', R w e → step w job = some (result, w') →
    result = (e.step job).1 ∧ R w' (e.step job).2

/-- A writer that keeps step with an encoder on every job keeps step with it on a row of jobs. -/
theorem run_steps {step : ω → Job → Option (Except WireError Unit × ω)} (hstep : Steps R step)
    (hR : R w e) (h : run step jobs w = some (results, w')) :
    results = (e.run jobs).1 ∧ R w' (e.run jobs).2 := by
  induction jobs generalizing w e results with
  | nil =>
    cases h
    exact ⟨rfl, hR⟩
  | cons job jobs ih =>
    obtain ⟨result, w₁, rest, hfirst, hrest, rfl⟩ := run_cons h
    obtain ⟨rfl, hR₁⟩ := hstep _ _ _ _ _ hR hfirst
    obtain ⟨rfl, hR'⟩ := ih hR₁ hrest
    exact ⟨rfl, hR'⟩

/-- Whether more polls change no result. -/
def Settles (step : Nat → ω → Job → Option (Except WireError Unit × ω)) : Prop :=
  ∀ n m w job x, n ≤ m → step n w job = some x → step m w job = some x

variable {step : Nat → ω → Job → Option (Except WireError Unit × ω)}

theorem run_mono (hmono : Settles step) {n m : Nat} (hle : n ≤ m)
    (h : run (step n) jobs w = some (results, w')) : run (step m) jobs w = some (results, w') := by
  induction jobs generalizing w results with
  | nil => exact h
  | cons job jobs ih =>
    obtain ⟨result, w₁, rest, hstep, hrun, rfl⟩ := run_cons h
    simp only [run, hmono _ _ _ _ _ hle hstep, ih hrun]

/-- A writer that is done with every job some time is done with every row of jobs. -/
theorem exists_run (hmono : Settles step) (hstep : ∀ n, Steps R (step n))
    (hdone : ∀ w e job, R w e → ∃ n, (step n w job).isSome) (hR : R w e) (jobs : List Job) :
    ∃ n, (run (step n) jobs w).isSome := by
  induction jobs generalizing w e with
  | nil => exact ⟨0, rfl⟩
  | cons job jobs ih =>
    obtain ⟨n, hn⟩ := hdone w e job hR
    obtain ⟨⟨result, w₁⟩, hfirst⟩ := Option.isSome_iff_exists.mp hn
    obtain ⟨m, hm⟩ := ih (hstep n _ _ _ _ _ hR hfirst).2
    obtain ⟨⟨rest, w₂⟩, hrest⟩ := Option.isSome_iff_exists.mp hm
    have hfirst' := hmono _ _ _ _ _ (Nat.le_max_left n m) hfirst
    have hrest' := run_mono hmono (Nat.le_max_right n m) hrest
    exact ⟨max n m, by simp only [run, hfirst', hrest', Option.isSome_some]⟩

end Job

variable {κ : Type} [Sink κ] {taken : κ → Bytes} {Q : κ → Prop} {pauses : κ → Nat}
  {base : Bytes} {e : Encoder} {job : Job} {result : Except WireError Unit} {n m : Nat}

/-! ## The sender -/

namespace FrameSender

/-- Does a job in at most `n` polls. -/
def step (n : Nat) (s : FrameSender κ) : Job → Option (Except WireError Unit × FrameSender κ)
  | .item x =>
    match s.start x with
    | (.error e, s) => some (.error e, s)
    | (.ok w, s) =>
      (finish FrameWrite.poll n w s.sink).map fun (result, sink) => (result, { s with sink })
  | .switch t => some (.ok (), { s with codec := s.codec.switch t })
  | .flush =>
    (finish pollFlush n () s.sink).map fun (result, sink) => (result, { s with sink })

variable {s s' : FrameSender κ}

theorem settles : Job.Settles (step (κ := κ)) := by
  intro n m s job x hle h
  unfold step at h ⊢
  split <;> simp only at h
  · split at h
    · exact h
    · obtain ⟨y, hy, rfl⟩ := Option.map_eq_some_iff.mp h
      exact Option.map_eq_some_iff.mpr ⟨y, finish_mono hy hle, rfl⟩
  · exact h
  · obtain ⟨y, hy, rfl⟩ := Option.map_eq_some_iff.mp h
    exact Option.map_eq_some_iff.mpr ⟨y, finish_mono hy hle, rfl⟩

omit [Sink κ] in
/-- What the sink has taken and what is staged together are what the encoder has filled its buffer
with. -/
structure Abreast (taken : κ → Bytes) (Q : κ → Prop) (base : Bytes) (s : FrameSender κ)
    (e : Encoder) : Prop where
  state : Q s.sink
  codec : s.codec = e.codec
  out : taken s.sink = base ++ e.out

omit [Sink κ] in
/-- Whatever the buffer held, it holds the frame of the item alone, or nothing if it is refused. -/
theorem start_eq (s : FrameSender κ) (x : Codec.Item) :
    ∃ reserves, s.start x =
      ((s.codec.verdict x).map fun _ => { rest := s.codec.itemFrame x },
        { s with scratch := s.codec.itemFrame x, reserves }) := by
  obtain ⟨hverdict, hout⟩ := s.codec.putItem_append [] s.reserves x
  rw [List.nil_append] at hout
  refine ⟨(s.codec.putItem [] s.reserves x).reserves, ?_⟩
  simp only [start, encode, clear, hverdict, hout]
  cases s.codec.verdict x <;> rfl

theorem step_of_refused {x : Codec.Item} {err : WireError} (h : s.codec.verdict x = .error err)
    (n : Nat) :
    ∃ reserves, s.step n (.item x) = some (.error err, { s with scratch := [], reserves }) := by
  obtain ⟨reserves, hstart⟩ := s.start_eq x
  rw [h, Codec.itemFrame_of_verdict h] at hstart
  exact ⟨reserves, by simp only [step, hstart, Except.map]⟩

theorem step_of_accepted {x : Codec.Item} (h : s.codec.verdict x = .ok ()) (n : Nat) :
    ∃ reserves, s.step n (.item x) =
      (finish FrameWrite.poll n { rest := s.codec.itemFrame x } s.sink).map fun (result, sink) =>
        (result, { s with sink, scratch := s.codec.itemFrame x, reserves }) := by
  obtain ⟨reserves, hstart⟩ := s.start_eq x
  rw [h] at hstart
  exact ⟨reserves, by simp only [step, hstart, Except.map]⟩

theorem steps (h : Unfailing taken Q) (base : Bytes) (n : Nat) :
    Job.Steps (Abreast taken Q base) (step n) := by
  intro s e job result s' ⟨hq, hcodec, hout⟩ hstep
  cases job with
  | item x =>
    obtain ⟨hresult, hkept, hnew⟩ := e.step_item x
    rw [← hcodec] at hresult hkept hnew
    rw [hresult]
    cases hv : s.codec.verdict x with
    | error err =>
      obtain ⟨reserves, heq⟩ := step_of_refused hv n
      cases heq.symm.trans hstep
      rw [Codec.itemFrame_of_verdict hv, List.append_nil] at hnew
      exact ⟨rfl, hq, hkept.symm, hout.trans (congrArg _ hnew.symm)⟩
    | ok u =>
      obtain ⟨reserves, heq⟩ := step_of_accepted hv n
      obtain ⟨⟨_, sink⟩, hfinish, hs'⟩ := Option.map_eq_some_iff.mp (heq.symm.trans hstep)
      cases hs'
      obtain ⟨rfl, hq', htaken⟩ := FrameWrite.finish_unfailing h hq hfinish
      refine ⟨rfl, hq', hkept.symm, ?_⟩
      rw [htaken, hout, hnew, List.append_assoc]
  | switch t =>
    cases hstep
    exact ⟨rfl, hq, congrArg (·.switch t) hcodec, hout⟩
  | flush =>
    obtain ⟨⟨_, sink⟩, hfinish, hs'⟩ := Option.map_eq_some_iff.mp hstep
    cases hs'
    obtain ⟨rfl, hq', htaken⟩ := finish_pollFlush h hq hfinish
    exact ⟨rfl, hq', hcodec, htaken.trans hout⟩

theorem exists_step (h : Unfailing taken Q) (hwakes : Wakes Q pauses) (hq : Q s.sink) (job : Job) :
    ∃ n, (s.step n job).isSome := by
  cases job with
  | item x =>
    cases hv : s.codec.verdict x with
    | error err =>
      obtain ⟨reserves, heq⟩ := step_of_refused hv 0
      exact ⟨0, by rw [heq]; rfl⟩
    | ok u =>
      obtain ⟨n, hn⟩ := FrameWrite.exists_finish h hwakes { rest := s.codec.itemFrame x } hq
      obtain ⟨reserves, heq⟩ := step_of_accepted hv n
      exact ⟨n, by rw [heq, Option.isSome_map]; exact hn⟩
  | switch t => exact ⟨0, rfl⟩
  | flush =>
    obtain ⟨n, hn⟩ := exists_finish_pollFlush h hwakes hq
    exact ⟨n, by simpa [step] using hn⟩

theorem sink_of_refused (h : Unfailing taken Q) (hq : Q s.sink) {err : WireError}
    (hstep : s.step n job = some (.error err, s')) : s'.sink = s.sink := by
  cases job with
  | item x =>
    cases hv : s.codec.verdict x with
    | error err' =>
      obtain ⟨reserves, heq⟩ := step_of_refused hv n
      cases heq.symm.trans hstep
      rfl
    | ok u =>
      obtain ⟨reserves, heq⟩ := step_of_accepted hv n
      obtain ⟨⟨_, sink⟩, hfinish, hs'⟩ := Option.map_eq_some_iff.mp (heq.symm.trans hstep)
      cases hs'
      cases (FrameWrite.finish_unfailing h hq hfinish).1
  | switch t => cases hstep
  | flush =>
    obtain ⟨⟨_, sink⟩, hfinish, hs'⟩ := Option.map_eq_some_iff.mp hstep
    cases hs'
    cases (finish_pollFlush h hq hfinish).1

end FrameSender

/-! ## The batcher -/

/-- A writer that writes when it is flushed. -/
structure Batcher (κ : Type) where
  outbox : Outbox
  sink : κ
  reserves : Reserves
  /-- The counts that the flushes have reported, in all. -/
  handed : Nat := 0

namespace Batcher

def step (n : Nat) (b : Batcher κ) : Job → Option (Except WireError Unit × Batcher κ)
  | .item x =>
    let (result, outbox, reserves) := b.outbox.stage x b.reserves
    some (result, { b with outbox, reserves })
  | .switch t => some (.ok (), { b with outbox := b.outbox.switch t })
  | .flush =>
    match finish Outbox.pollFlush n b.outbox.flush (b.outbox, b.sink) with
    | none => none
    | some (.ok count, outbox, sink) =>
      some (.ok (), { b with outbox, sink, handed := b.handed + count })
    | some (.error e, outbox, sink) => some (.error e, { b with outbox, sink })

variable {b b' : Batcher κ}

theorem settles : Job.Settles (step (κ := κ)) := by
  intro n m b job x hle h
  unfold step at h ⊢
  split <;> simp only at h
  · exact h
  · exact h
  · split at h <;> rename_i hf
    · cases h
    · simpa only [finish_mono hf hle] using h
    · simpa only [finish_mono hf hle] using h

omit [Sink κ] in
/-- What the sink has taken and what is staged together are what the encoder has filled its buffer
with, and the sink has taken as much as was reported. -/
structure Abreast (taken : κ → Bytes) (Q : κ → Prop) (base : Bytes) (b : Batcher κ) (e : Encoder) :
    Prop where
  state : Q b.sink
  codec : b.outbox.codec = e.codec
  out : taken b.sink ++ b.outbox.staged = base ++ e.out
  handed : base.length + b.handed = (taken b.sink).length

theorem step_flush (h : Unfailing taken Q) (hq : Q b.sink)
    (hstep : b.step n .flush = some (result, b')) :
    result = .ok () ∧ Q b'.sink ∧ b'.outbox = { codec := b.outbox.codec, staged := [] } ∧
      taken b'.sink = taken b.sink ++ b.outbox.staged ∧
      b'.handed = b.handed + b.outbox.staged.length := by
  unfold step at hstep
  simp only at hstep
  split at hstep <;> rename_i hf
  · cases hstep
  · cases hstep
    obtain ⟨hcount, hq', htaken, houtbox⟩ := Outbox.finish_unfailing h hq hf
    cases hcount
    exact ⟨rfl, hq', houtbox, htaken, rfl⟩
  · cases (Outbox.finish_unfailing h hq hf).result

theorem steps (h : Unfailing taken Q) (base : Bytes) (n : Nat) :
    Job.Steps (Abreast taken Q base) (step n) := by
  intro b e job result b' ⟨hq, hcodec, hout, hhanded⟩ hstep
  cases job with
  | item x =>
    cases hstep
    obtain ⟨hresult, hkept, hnew⟩ := e.step_item x
    have hstaged := b.outbox.stage_eq x b.reserves
    have hverdict := (b.outbox.codec.putItem_append b.outbox.staged b.reserves x).1
    rw [← hcodec] at hresult hkept hnew
    refine ⟨hverdict.trans hresult.symm, hq, ?_, ?_, hhanded⟩
    · exact (congrArg Outbox.codec hstaged).trans hkept.symm
    · show taken b.sink ++ (b.outbox.stage x b.reserves).2.1.staged = _
      rw [hstaged, hnew, ← List.append_assoc, hout, List.append_assoc]
  | switch t =>
    cases hstep
    exact ⟨rfl, hq, congrArg (·.switch t) hcodec, hout, hhanded⟩
  | flush =>
    obtain ⟨rfl, hq', houtbox, htaken, hcount⟩ := step_flush h hq hstep
    refine ⟨rfl, hq', ?_, ?_, ?_⟩
    · rw [houtbox]
      exact hcodec
    · rw [houtbox, htaken, List.append_nil]
      exact hout
    · rw [hcount, htaken, List.length_append, ← hhanded, Nat.add_assoc]

theorem exists_step (h : Unfailing taken Q) (hwakes : Wakes Q pauses) (hq : Q b.sink) (job : Job) :
    ∃ n, (b.step n job).isSome := by
  cases job with
  | item x => exact ⟨0, rfl⟩
  | switch t => exact ⟨0, rfl⟩
  | flush =>
    obtain ⟨n, hn⟩ := Outbox.exists_finish (o := b.outbox) h hwakes hq
    refine ⟨n, ?_⟩
    unfold step
    simp only
    split <;> rename_i hf
    · rw [hf] at hn
      cases hn
    · rfl
    · rfl

theorem kept_of_refused (h : Unfailing taken Q) (hq : Q b.sink) {err : WireError}
    (hstep : b.step n job = some (.error err, b')) :
    b'.outbox = b.outbox ∧ b'.sink = b.sink ∧ b'.handed = b.handed := by
  cases job with
  | item x =>
    rcases hs : b.outbox.stage x b.reserves with ⟨result', outbox, reserves⟩
    simp only [step, hs] at hstep
    cases hstep
    exact ⟨Outbox.stage_of_refused hs, rfl, rfl⟩
  | switch t => cases hstep
  | flush => cases (step_flush h hq hstep).1

end Batcher

variable {κ' : Type} [Sink κ'] {taken' : κ' → Bytes} {Q' : κ' → Prop}

/-- On sinks that never fail, a sender and a batcher answer every job as an encoder does, and their
sinks take the bytes in the encoder's buffer. If the sinks wake their writers, both come to their
ends. -/
theorem writers_agree (h : Unfailing taken Q) (h' : Unfailing taken' Q') (c : Codec) (k : κ)
    (k' : κ') (hk : Q k) (hk' : Q' k') (r r' r'' : Reserves) (scratch : Bytes)
    (jobs : List Job) :
    let sender : FrameSender κ := { codec := c, sink := k, reserves := r, scratch }
    let batcher : Batcher κ' := { outbox := { codec := c }, sink := k', reserves := r' }
    let encoded := Encoder.run jobs { codec := c, reserves := r'' }
    (∀ n results s, Job.run (FrameSender.step n) jobs sender = some (results, s) →
      results = encoded.1 ∧ taken s.sink = taken k ++ encoded.2.out) ∧
    (∀ n results b, Job.run (Batcher.step n) (jobs ++ [.flush]) batcher = some (results, b) →
      results = encoded.1 ++ [.ok ()] ∧ taken' b.sink = taken' k' ++ encoded.2.out ∧
        b.handed = encoded.2.out.length) ∧
    (∀ n (s s' : FrameSender κ) job e, Q s.sink → s.step n job = some (.error e, s') →
      s'.sink = s.sink) ∧
    (∀ n (b b' : Batcher κ') job e, Q' b.sink → b.step n job = some (.error e, b') →
      b'.outbox = b.outbox ∧ b'.sink = b.sink ∧ b'.handed = b.handed) ∧
    (∀ (d : Encoder) job e, (d.step job).1 = .error e → (d.step job).2.out = d.out) ∧
    (∀ pauses pauses', Wakes Q pauses → Wakes Q' pauses' →
      ∃ n m, (Job.run (FrameSender.step n) jobs sender).isSome ∧
        (Job.run (Batcher.step m) (jobs ++ [.flush]) batcher).isSome) := by
  intro sender batcher encoded
  have hsender : FrameSender.Abreast taken Q (taken k) sender { codec := c, reserves := r'' } :=
    ⟨hk, rfl, (List.append_nil _).symm⟩
  have hbatcher : Batcher.Abreast taken' Q' (taken' k') batcher { codec := c, reserves := r'' } :=
    ⟨hk', rfl, rfl, rfl⟩
  refine ⟨fun n results s hrun => ?_, fun n results b hrun => ?_,
    fun n s s' job e hq hstep => FrameSender.sink_of_refused h hq hstep,
    fun n b b' job e hq hstep => Batcher.kept_of_refused h' hq hstep,
    fun d job e hfailed => Encoder.out_of_refused hfailed, fun pauses pauses' hwakes hwakes' => ?_⟩
  · obtain ⟨hresults, habreast⟩ := Job.run_steps (FrameSender.steps h _ n) hsender hrun
    exact ⟨hresults, habreast.out⟩
  · obtain ⟨hresults, habreast⟩ := Job.run_steps (Batcher.steps h' _ n) hbatcher hrun
    rw [Encoder.run_concat] at hresults habreast
    obtain ⟨rest, b₁, last, hrun₁, hlast⟩ := Job.run_concat hrun
    obtain ⟨-, habreast₁⟩ := Job.run_steps (Batcher.steps h' _ n) hbatcher hrun₁
    obtain ⟨-, -, houtbox, -, -⟩ := Batcher.step_flush h' habreast₁.state hlast
    have hout : taken' b.sink = taken' k' ++ encoded.2.out := by
      have hsum := habreast.out
      rwa [houtbox, List.append_nil] at hsum
    have hhanded := habreast.handed
    rw [hout, List.length_append] at hhanded
    exact ⟨hresults, hout, Nat.add_left_cancel hhanded⟩
  · obtain ⟨n, hn⟩ := Job.exists_run FrameSender.settles (FrameSender.steps h _)
      (fun s e job hs => FrameSender.exists_step h hwakes hs.state job) hsender jobs
    obtain ⟨m, hm⟩ := Job.exists_run Batcher.settles (Batcher.steps h' _)
      (fun b e job hb => Batcher.exists_step h' hwakes' hb.state job) hbatcher
      (jobs ++ [.flush])
    exact ⟨n, m, hn, hm⟩

/-- Two jobs that come out and two that are refused, on sinks that take little at a time. -/
theorem writers_agree_refused :
    let c : Codec := { maxFrame := 4 }
    let jobs : List Job := [.item (.packet { id := 5, payload := [7] }), .flush, .item (.raw []),
      .item (.packet { id := 6, payload := [1, 2, 3, 4] }), .switch 9, .item (.raw [8, 9])]
    let slow : Script := { writes := [.accept 1, .pending, .accept 1, .accept 1] }
    let quick : Script := { writes := [.accept 2, .pending], flushes := [.pending] }
    let encoded := Encoder.run jobs { codec := c, reserves := {} }
    encoded.1 = [.ok (), .ok (), .error (.invalidFrame .missingId), .error (.oversizedPacket 5),
      .ok (), .ok ()] ∧
    (∀ n results s,
      Job.run (FrameSender.step n) jobs
        { codec := c, sink := slow, reserves := {}, scratch := [1, 2, 3] } = some (results, s) →
      results = encoded.1 ∧ s.sink.written = encoded.2.out) ∧
    (∃ n m, (Job.run (FrameSender.step n) jobs
        { codec := c, sink := slow, reserves := {}, scratch := [1, 2, 3] }).isSome ∧
      (Job.run (Batcher.step m) (jobs ++ [.flush])
        { outbox := { codec := c }, sink := quick, reserves := {} }).isSome) := by
  intro c jobs slow quick encoded
  have hslow : slow.Takes := ⟨by simp [slow], by simp [slow]⟩
  have hquick : quick.Takes := ⟨by simp [quick], by simp [quick]⟩
  obtain ⟨hsender, -, -, -, -, hdone⟩ :=
    writers_agree Script.unfailing Script.unfailing c slow quick hslow hquick {} {} {} [1, 2, 3]
      jobs
  refine ⟨by decide, fun n results s hrun => ?_, hdone _ _ Script.wakes Script.wakes⟩
  obtain ⟨hresults, hwritten⟩ := hsender n results s hrun
  exact ⟨hresults, hwritten⟩

end PacketWire
