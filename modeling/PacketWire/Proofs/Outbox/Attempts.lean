import Mathlib.Control.Monad.Basic
import PacketWire.Endpoint.Script
import PacketWire.Proofs.Outbox

/-!
# Flushes that are tried again

A `Dispatch` is an outbox at work on a sink: items are staged, and flushes and closes are begun,
polled and given up. It keeps count of the frames that were staged, and of what every flush began
with and what the sink took of it. A flush begins right behind the last one that came to its end.
So one that stopped midway is not resumed: the next one hands the same bytes over again.
-/

namespace PacketWire

namespace Codec

/-- The frame of an item, or nothing if the item is refused. -/
def itemFrame (c : Codec) (x : Item) : Bytes := (c.encodeBody x.body []).2

theorem encodeBody_append (c : Codec) (body out : Bytes) :
    c.encodeBody body out = ((c.encodeBody body []).1, out ++ (c.encodeBody body []).2) := by
  by_cases hne : body = []
  · subst hne
    simp [encodeBody]
  · rw [encodeBody_eq hne, encodeBody_eq hne]
    cases c.wrap body with
    | error e => simp
    | ok v =>
      simp only
      split <;> simp

/-- Neither the verdict on an item nor the bytes added depend on what is there before. -/
theorem putItem_alone (c : Codec) (out : Bytes) (r : Reserves) (x : Item) :
    (c.putItem out r x).result = (c.encodeBody x.body []).1 ∧
      (c.putItem out r x).out = out ++ c.itemFrame x := by
  have hput := c.putItem_eq out r x
  rw [encodeBody_append, Prod.mk.injEq] at hput
  exact hput

theorem itemFrame_of_refused {c : Codec} {x : Item} {e : WireError}
    (h : (c.encodeBody x.body []).1 = .error e) : c.itemFrame x = [] := by
  unfold itemFrame
  by_cases hne : x.body = []
  · rw [hne]
    rfl
  · rw [encodeBody_eq hne] at h ⊢
    split
    · rfl
    · rename_i z frame hw
      simp only [hw] at h
      split at h
      · rename_i hm
        rw [if_pos hm]
      · cases h

end Codec

namespace Outbox

theorem stage_eq (o : Outbox) (x : Codec.Item) (r : Reserves) :
    (o.stage x r).2.1 = { o with staged := o.staged ++ o.codec.itemFrame x } := by
  simp only [stage, (o.codec.putItem_alone o.staged r x).2]

theorem stage_of_refused {o o' : Outbox} {x : Codec.Item} {r r' : Reserves} {e : WireError}
    (h : o.stage x r = (.error e, o', r')) : o' = o := by
  have ho := o.stage_eq x r
  have hresult : (o.stage x r).1 = .error e := by rw [h]
  simp only [stage, (o.codec.putItem_alone o.staged r x).1] at hresult
  have hrefused : (o.codec.encodeBody x.body []).1 = .error e := by
    cases hx : (o.codec.encodeBody x.body []).1 <;> simp [hx, Except.map] at hresult
    rw [hresult]
  rw [h, Codec.itemFrame_of_refused hrefused, List.append_nil] at ho
  exact ho

/-- A call that goes on over several polls. -/
inductive Call where
  | flush (f : Flush)
  | close (c : Close)
  deriving DecidableEq, Repr

def Call.poll {κ : Type} [Sink κ] (call : Call) (o : Outbox) (k : κ) :
    Progress Call (Except WireError Unit) × Outbox × κ :=
  match call with
  | .flush f =>
    match f.poll o k with
    | (.waiting f, o, k) => (.waiting (.flush f), o, k)
    | (.done result, o, k) => (.done (result.map fun _ => ()), o, k)
  | .close c =>
    match c.poll o k with
    | (.waiting c, o, k) => (.waiting (.close c), o, k)
    | (.done result, o, k) => (.done result, o, k)

def Call.rest : Call → Bytes
  | .flush f => f.rest
  | .close c => c.rest

variable {τ : Type} [Transport τ]

/-- The sink takes the bytes of `rest` up to `left`. The staged bytes stay until nothing is left,
and then go. -/
structure Took (rest left : Bytes) (o : Outbox) (k : Recorded τ) (o' : Outbox) (k' : Recorded τ) :
    Prop where
  accepted : ∃ bs, bs ++ left = rest ∧ k'.accepted = k.accepted ++ bs
  staged : o'.staged = if left = [] then [] else o.staged
  codec : o'.codec = o.codec

/-- What a poll of an operation with `rest` to hand over can do. It succeeds only when nothing is
left. -/
def Polled {φ α : Type} (restOf : φ → Bytes) (rest : Bytes) (o : Outbox) (k : Recorded τ) :
    Progress φ (Except WireError α) × Outbox × Recorded τ → Prop
  | (.waiting f, o', k') => Took rest (restOf f) o k o' k'
  | (.done (.ok _), o', k') => Took rest [] o k o' k'
  | (.done (.error _), o', k') => ∃ left, Took rest left o k o' k'

variable {o : Outbox} {k : Recorded τ}

omit [Transport τ] in
theorem took_nothing {k' : Recorded τ} (hstaged : o.staged = [])
    (hk : k'.accepted = k.accepted) : Took [] [] o k o k' where
  accepted := ⟨[], rfl, by rw [hk, List.append_nil]⟩
  staged := hstaged
  codec := rfl

omit [Transport τ] in
theorem Took.trans {rest left left' : Bytes} {o' o'' : Outbox} {k' k'' : Recorded τ}
    (h : Took rest left o k o' k') (h' : Took left left' o' k' o'' k'') :
    Took rest left' o k o'' k'' := by
  obtain ⟨bs, hsum, htaken⟩ := h.accepted
  obtain ⟨bs', hsum', htaken'⟩ := h'.accepted
  refine ⟨⟨bs ++ bs', ?_, ?_⟩, ?_, h'.codec.trans h.codec⟩
  · rw [List.append_assoc, hsum', hsum]
  · rw [htaken', htaken, List.append_assoc]
  · rw [h'.staged, h.staged]
    by_cases hleft : left = []
    · have hleft' : left' = [] := (List.append_eq_nil_iff.mp (hsum'.trans hleft)).2
      rw [if_pos hleft', if_pos hleft']
    · rw [if_neg hleft]

variable {φ α : Type} {restOf : φ → Bytes}

omit [Transport τ] in
theorem Polled.after {rest left : Bytes} {o' : Outbox} {k' : Recorded τ}
    (h : Took rest left o k o' k')
    {w : Progress φ (Except WireError α) × Outbox × Recorded τ}
    (h' : Polled restOf left o' k' w) : Polled restOf rest o k w := by
  obtain ⟨_ | _ | _, o'', k''⟩ := w
  · exact h.trans h'
  · obtain ⟨left', htook⟩ := h'
    exact ⟨left', h.trans htook⟩
  · exact h.trans h'

theorem polled_settle (n : Nat) (h : o.staged = []) :
    Polled Flush.rest [] o k (Flush.settle n o k) := by
  unfold Flush.settle flushSink
  split <;> rename_i hf <;> split at hf <;> cases hf <;> rename_i hk
  · exact took_nothing h (Recorded.accepted_flush hk)
  · exact ⟨[], took_nothing h (Recorded.accepted_flush hk)⟩
  · exact took_nothing h (Recorded.accepted_flush hk)

theorem polled_flush (f : Flush) (h : f.rest = [] → o.staged = []) :
    Polled Flush.rest f.rest o k (f.poll o k) := by
  cases f with
  | flushing n => exact polled_settle n (h rfl)
  | writing n rest =>
    obtain ⟨front, left, hsum, htaken, hleaves⟩ := Recorded.keeps_accepted.leaves_writeAll rest k
    unfold Flush.poll
    simp only
    split <;> rename_i hw <;> rw [hw] at htaken hleaves
    · obtain ⟨rfl, hne⟩ := hleaves
      exact ⟨⟨front, hsum, htaken⟩, (if_neg hne).symm, rfl⟩
    · exact ⟨left, ⟨front, hsum, htaken⟩, (if_neg hleaves).symm, rfl⟩
    · rename_i k'
      obtain rfl : left = [] := hleaves
      have hall : Took rest [] o k { o with staged := [] } k' := ⟨⟨front, hsum, htaken⟩, rfl, rfl⟩
      exact (polled_settle n rfl).after hall

theorem polled_shutDown (h : o.staged = []) :
    Polled Close.rest [] o k (Close.shutDown o k) := by
  unfold Close.shutDown
  split <;> rename_i hk
  · exact took_nothing h (Recorded.accepted_shutdown hk)
  · exact ⟨[], took_nothing h (Recorded.accepted_shutdown hk)⟩
  · exact took_nothing h (Recorded.accepted_shutdown hk)

theorem polled_close (c : Close) (h : c.rest = [] → o.staged = []) :
    Polled Close.rest c.rest o k (c.poll o k) := by
  cases c with
  | shuttingDown => exact polled_shutDown (h rfl)
  | flushing f =>
    have hpolled := polled_flush (k := k) f h
    unfold Close.poll
    simp only
    split <;> rename_i hf <;> rw [hf] at hpolled
    · exact hpolled
    · exact hpolled
    · have htook : Took f.rest [] o k _ _ := hpolled
      exact (polled_shutDown htook.staged).after htook

theorem polled_call (call : Call) (h : call.rest = [] → o.staged = []) :
    Polled Call.rest call.rest o k (call.poll o k) := by
  cases call with
  | flush f =>
    have hpolled := polled_flush (k := k) f h
    unfold Call.poll
    simp only
    split <;> rename_i hf <;> rw [hf] at hpolled
    · exact hpolled
    · rename_i result o' k'
      cases result <;> exact hpolled
  | close c =>
    have hpolled := polled_close (k := k) c h
    unfold Call.poll
    simp only
    split <;> rename_i hc <;> rw [hc] at hpolled
    · exact hpolled
    · rename_i result o' k'
      cases result <;> exact hpolled

end Outbox

/-! ## Attempts -/

/-- A flush that was begun, on its own or in a close. -/
structure Attempt where
  staged : Bytes := []
  taken : Bytes := []
  deriving DecidableEq, Repr

/-- What the flush has handed over for good: nothing if it has not come to its end. -/
def Attempt.settled (a : Attempt) : Bytes := if a.taken = a.staged then a.staged else []

theorem concat_prefix_concat {before as : List Attempt} {a b : Attempt}
    (h : before ++ [a] <+: as ++ [b]) : before = as ∧ a = b ∨ before ++ [a] <+: as :=
  (List.prefix_concat_iff.mp h).imp_left fun h => by simpa using List.append_inj' h rfl

/-- An outbox at work on a sink. -/
structure Dispatch (τ : Type) where
  outbox : Outbox
  sink : Recorded τ
  reserves : Reserves
  call : Option Outbox.Call := none
  /-- The frames of the items that were staged, in order. -/
  frames : Bytes := []
  /-- The flushes before the latest, in order. -/
  past : List Attempt := []
  latest : Attempt := {}

/-- A flush has settled all or nothing, depending on what is left of it. -/
theorem Attempt.settled_of_sum {a : Attempt} {left : Bytes} (h : a.taken ++ left = a.staged) :
    a.settled = if left = [] then a.staged else [] := by
  have hwhole : a.taken = a.staged ↔ left = [] := by
    rw [← h]
    exact List.self_eq_append_right
  unfold settled
  simp only [hwhole]

namespace Dispatch

/-- What flushes that came to their ends have handed over for good. -/
def settled (as : List Attempt) : Bytes := as.flatMap Attempt.settled

def taken (as : List Attempt) : Bytes := as.flatMap Attempt.taken

theorem settled_concat (as : List Attempt) (a : Attempt) :
    settled (as ++ [a]) = settled as ++ a.settled := by
  simp [settled]

theorem taken_concat (as : List Attempt) (a : Attempt) :
    taken (as ++ [a]) = taken as ++ a.taken := by
  simp [taken]

/-- What can happen to an outbox and its sink. -/
inductive Act (τ : Type) where
  | stage (item : Codec.Item)
  | switch (threshold : Int32)
  | flush
  | close
  | poll
  | giveUp
  /-- Something happens at the far end of the sink and to the reserves. -/
  | elsewhere (act : τ → τ) (use : Reserves → Reserves)

variable {τ : Type} [Transport τ]

omit [Transport τ] in
def start (c : Codec) (t : τ) (r : Reserves) : Dispatch τ :=
  { outbox := { codec := c }, sink := { inner := t }, reserves := r }

omit [Transport τ] in
def attempts (d : Dispatch τ) : List Attempt := d.past ++ [d.latest]

omit [Transport τ] in
/-- Begins a call that hands over what is staged. One under way is given up. -/
def begin (call : Outbox.Call) (d : Dispatch τ) : Dispatch τ :=
  { d with call := some call, past := d.attempts, latest := { staged := d.outbox.staged } }

omit [Transport τ] in
/-- Notes what the sink has taken. -/
def went (outbox : Outbox) (sink : Recorded τ) (call : Option Outbox.Call) (d : Dispatch τ) :
    Dispatch τ :=
  let new := sink.accepted.drop d.sink.accepted.length
  { d with outbox, sink, call, latest := { d.latest with taken := d.latest.taken ++ new } }

def pollCall (call : Outbox.Call) (d : Dispatch τ) : Dispatch τ :=
  match call.poll d.outbox d.sink with
  | (.waiting call, outbox, sink) => d.went outbox sink (some call)
  | (.done _, outbox, sink) => d.went outbox sink none

def step (d : Dispatch τ) : Act τ → Dispatch τ
  | .stage item =>
    match d.outbox.stage item d.reserves with
    | (.ok (), outbox, reserves) =>
      { d with
        outbox, reserves, call := none, frames := d.frames ++ d.outbox.codec.itemFrame item }
    | (.error _, outbox, reserves) => { d with outbox, reserves, call := none }
  | .switch t => { d with outbox := d.outbox.switch t }
  | .flush => d.begin (.flush d.outbox.flush)
  | .close => d.begin (.close d.outbox.close)
  | .poll =>
    match d.call with
    | none => d
    | some call => d.pollCall call
  | .giveUp => { d with call := none }
  | .elsewhere act use =>
    { d with sink := { d.sink with inner := act d.sink.inner }, reserves := use d.reserves }

def run (acts : List (Act τ)) (d : Dispatch τ) : Dispatch τ := acts.foldl step d

/-! ## What every act keeps -/

/-- What a call under way has done of its flush. -/
structure Underway (call : Outbox.Call) (o : Outbox) (a : Attempt) : Prop where
  sum : a.taken ++ call.rest = a.staged
  staged : o.staged = if call.rest = [] then [] else a.staged

/-- Every byte staged or taken belongs to an attempt, and every attempt begins behind those that
came to their ends. -/
structure Accounted (d : Dispatch τ) : Prop where
  accepted : d.sink.accepted = taken d.attempts
  frames : settled d.attempts ++ d.outbox.staged = d.frames
  behind : ∀ before a, before ++ [a] <+: d.attempts →
    a.taken <+: a.staged ∧ settled before ++ a.staged <+: d.frames
  underway : ∀ call, d.call = some call → Underway call d.outbox d.latest

namespace Accounted

variable {d : Dispatch τ}

omit [Transport τ] in
theorem start (c : Codec) (t : τ) (r : Reserves) : (Dispatch.start c t r).Accounted where
  accepted := rfl
  frames := rfl
  behind before a h := by
    rcases concat_prefix_concat (show before ++ [a] <+: [] ++ [{}] from h) with ⟨rfl, rfl⟩ | h
    · exact ⟨List.nil_prefix, List.nil_prefix⟩
    · simp at h
  underway call h := by cases h

omit [Transport τ] in
theorem stage (h : d.Accounted) {outbox : Outbox} {frame : Bytes} (r : Reserves)
    (hstaged : outbox.staged = d.outbox.staged ++ frame) :
    Accounted { d with
      outbox, reserves := r, call := none, frames := d.frames ++ frame } where
  accepted := h.accepted
  frames := by
    show settled d.attempts ++ outbox.staged = d.frames ++ frame
    rw [hstaged, ← List.append_assoc, h.frames]
  behind before a ha := by
    obtain ⟨htaken, hfrom⟩ := h.behind before a ha
    exact ⟨htaken, hfrom.trans (List.prefix_append ..)⟩
  underway call h := by cases h

omit [Transport τ] in
theorem begin (h : d.Accounted) {call : Outbox.Call} (hrest : call.rest = d.outbox.staged) :
    (d.begin call).Accounted where
  accepted := by
    show d.sink.accepted = taken (d.attempts ++ [{ staged := d.outbox.staged }])
    rw [taken_concat, ← h.accepted, List.append_nil]
  frames := by
    show settled (d.attempts ++ [{ staged := d.outbox.staged }]) ++ d.outbox.staged = d.frames
    have hnew : Attempt.settled { staged := d.outbox.staged } = [] := by
      rw [Attempt.settled_of_sum (List.nil_append d.outbox.staged)]
      exact ite_eq_right_iff.mpr id
    rw [settled_concat, hnew, List.append_nil, h.frames]
  behind before a ha := by
    have ha : before ++ [a] <+: d.attempts ++ [{ staged := d.outbox.staged }] := ha
    rcases concat_prefix_concat ha with ⟨rfl, rfl⟩ | ha
    · exact ⟨List.nil_prefix, h.frames ▸ List.prefix_rfl⟩
    · exact h.behind before a ha
  underway call' hc := by
    cases hc
    refine ⟨hrest, ?_⟩
    show d.outbox.staged = if call.rest = [] then [] else d.outbox.staged
    rw [hrest]
    split
    · assumption
    · rfl

omit [Transport τ] in
/-- A poll hands bytes of the latest flush over, and settles it once nothing is left. -/
theorem went (h : d.Accounted) {call : Outbox.Call} (hcall : d.call = some call) {left : Bytes}
    {outbox : Outbox} {sink : Recorded τ} (call' : Option Outbox.Call)
    (took : Outbox.Took call.rest left d.outbox d.sink outbox sink)
    (hleft : ∀ c, call' = some c → c.rest = left) :
    (d.went outbox sink call').Accounted := by
  obtain ⟨hsum, hstaged⟩ := h.underway call hcall
  obtain ⟨bs, hbs, htaken⟩ := took.accepted
  let latest : Attempt := { d.latest with taken := d.latest.taken ++ bs }
  have hlatest : latest.taken ++ left = latest.staged := by
    rw [List.append_assoc, hbs, hsum]
  have hwent : d.went outbox sink call' = { d with outbox, sink, call := call', latest } := by
    simp only [Dispatch.went, htaken, List.drop_left, latest]
  have hsettled : latest.settled ++ outbox.staged = d.latest.settled ++ d.outbox.staged := by
    rw [Attempt.settled_of_sum hlatest, Attempt.settled_of_sum hsum, took.staged, hstaged, ← hbs]
    by_cases hleft : left = []
    · by_cases hb : bs = []
      · simp [hleft, hb, latest]
      · simp [hleft, hb, latest]
    · simp [hleft]
  rw [hwent]
  exact {
    accepted := by
      show sink.accepted = taken (d.past ++ [latest])
      rw [htaken, h.accepted, attempts, taken_concat, taken_concat, List.append_assoc]
    frames := by
      show settled (d.past ++ [latest]) ++ outbox.staged = d.frames
      rw [settled_concat, List.append_assoc, hsettled, ← List.append_assoc, ← settled_concat]
      exact h.frames
    behind := fun before a ha => by
      have ha : before ++ [a] <+: d.past ++ [latest] := ha
      rcases concat_prefix_concat ha with ⟨rfl, rfl⟩ | ha
      · exact ⟨⟨left, hlatest⟩, (h.behind d.past d.latest List.prefix_rfl).2⟩
      · exact h.behind before a (ha.trans (List.prefix_append ..))
    underway := fun c hc => by
      obtain rfl := hleft c hc
      refine ⟨hlatest, ?_⟩
      show outbox.staged = if c.rest = [] then [] else d.latest.staged
      rw [took.staged, hstaged]
      by_cases hleft : c.rest = []
      · rw [if_pos hleft, if_pos hleft]
      · have hrest : call.rest ≠ [] := fun hrest =>
          hleft (List.append_eq_nil_iff.mp (hbs.trans hrest)).2
        rw [if_neg hleft, if_neg hleft, if_neg hrest] }

theorem pollCall (h : d.Accounted) {call : Outbox.Call} (hcall : d.call = some call) :
    (d.pollCall call).Accounted ∧
      ((call.poll d.outbox d.sink).1 = .done (.ok ()) →
        settled (d.pollCall call).attempts = d.frames) := by
  have hpolled := Outbox.polled_call (k := d.sink) call fun hrest => by
    rw [(h.underway call hcall).staged, if_pos hrest]
  unfold Dispatch.pollCall
  split <;> rename_i hp <;> rw [hp] at hpolled ⊢
  · rename_i call' outbox sink
    refine ⟨h.went hcall (some call') hpolled fun c hc => ?_, by simp⟩
    cases hc
    rfl
  · rename_i result outbox sink
    cases result with
    | error e =>
      obtain ⟨left, took⟩ := hpolled
      exact ⟨h.went hcall none took (by simp), by simp⟩
    | ok u =>
      have took : Outbox.Took call.rest [] d.outbox d.sink outbox sink := hpolled
      have hwent := h.went hcall none took (by simp)
      have hframes : settled (d.went outbox sink none).attempts ++ outbox.staged = d.frames :=
        hwent.frames
      rw [took.staged, if_pos rfl, List.append_nil] at hframes
      exact ⟨hwent, fun _ => hframes⟩

theorem step (h : d.Accounted) (act : Act τ) : (d.step act).Accounted := by
  cases act with
  | stage item =>
    have hstage := d.outbox.stage_eq item d.reserves
    unfold Dispatch.step
    simp only
    split <;> rename_i hs
    · rw [hs] at hstage
      exact h.stage _ (congrArg Outbox.staged hstage)
    · rename_i e outbox reserves
      have hkept := Outbox.stage_of_refused hs
      have hnothing : outbox.staged = d.outbox.staged ++ [] := by rw [hkept, List.append_nil]
      have hsame := h.stage reserves hnothing
      rwa [List.append_nil] at hsame
  | switch t =>
    exact ⟨h.accepted, h.frames, h.behind, fun call hc =>
      ⟨(h.underway call hc).sum, (h.underway call hc).staged⟩⟩
  | flush => exact h.begin (Outbox.rest_flush _)
  | close => exact h.begin (Outbox.rest_flush _)
  | poll =>
    unfold Dispatch.step
    simp only
    split
    · exact h
    · rename_i call hcall
      exact (h.pollCall hcall).1
  | giveUp => exact ⟨h.accepted, h.frames, h.behind, fun call hc => by cases hc⟩
  | elsewhere act use => exact ⟨h.accepted, h.frames, h.behind, h.underway⟩

theorem run (h : d.Accounted) (acts : List (Act τ)) : (d.run acts).Accounted := by
  induction acts generalizing d with
  | nil => exact h
  | cons act acts ih => exact ih (h.step act)

end Accounted

/-! ## What reaches the sink -/

omit [Transport τ] in
/-- Whether every flush before the latest came to its end or handed over nothing. -/
def Unbroken (d : Dispatch τ) : Prop := ∀ a ∈ d.past, a.taken = [] ∨ a.taken = a.staged

namespace Unbroken

variable {d : Dispatch τ}

omit [Transport τ] in
theorem taken_past (h : d.Unbroken) : taken d.past = settled d.past := by
  have heq : ∀ a ∈ d.past, a.taken = a.settled := by
    intro a ha
    unfold Attempt.settled
    rcases h a ha with hnone | hall
    · split
      · assumption
      · exact hnone
    · rw [if_pos hall, hall]
  rw [taken, settled, List.flatMap_def, List.flatMap_def, List.map_congr_left heq]

omit [Transport τ] in
theorem accepted_prefix (h : d.Unbroken) (ha : d.Accounted) : d.sink.accepted <+: d.frames := by
  obtain ⟨⟨left, hleft⟩, hfrom⟩ := ha.behind d.past d.latest List.prefix_rfl
  rw [ha.accepted, attempts, taken_concat, h.taken_past]
  refine List.IsPrefix.trans ⟨left, ?_⟩ hfrom
  rw [List.append_assoc, hleft]

omit [Transport τ] in
theorem accepted_eq (h : d.Unbroken) (ha : d.Accounted) (hall : settled d.attempts = d.frames) :
    d.sink.accepted = d.frames := by
  refine (h.accepted_prefix ha).eq_of_length_le ?_
  rw [← hall, ha.accepted, attempts, taken_concat, settled_concat, h.taken_past]
  simp only [List.length_append, Attempt.settled]
  split
  · rename_i hwhole
    exact Nat.le_of_eq (by rw [hwhole])
  · simp

end Unbroken

/-- Flush after flush hands over the front of what was staged, behind the frames of earlier flushes
that succeeded. One that stopped midway is not resumed: the next one starts over with what it began
with. -/
theorem flush_starts_over (c : Codec) (t : τ) (r : Reserves) (acts : List (Act τ)) :
    let d := (start c t r).run acts
    d.sink.accepted = taken d.attempts ∧
      (∀ before a, before ++ [a] <+: d.attempts →
        a.taken <+: a.staged ∧ settled before ++ a.staged <+: d.frames) ∧
      settled d.attempts ++ d.outbox.staged = d.frames ∧
      (d.Unbroken → d.sink.accepted <+: d.frames) ∧
      (∀ call, d.call = some call → (call.poll d.outbox d.sink).1 = .done (.ok ()) →
        settled (d.step .poll).attempts = d.frames ∧
          (d.Unbroken → (d.step .poll).sink.accepted = d.frames)) := by
  intro d
  have h : d.Accounted := (Accounted.start c t r).run acts
  refine ⟨h.accepted, h.behind, h.frames, fun hu => hu.accepted_prefix h, fun call hc hok => ?_⟩
  have hstep : d.step .poll = d.pollCall call := by simp only [step, hc]
  obtain ⟨hpolled, hsettled⟩ := h.pollCall hc
  rw [hstep]
  have hframes : (d.pollCall call).frames = d.frames := by
    unfold pollCall
    split <;> rfl
  have hpast : (d.pollCall call).past = d.past := by
    unfold pollCall
    split <;> rfl
  refine ⟨hsettled hok, fun hu => ?_⟩
  have hunbroken : (d.pollCall call).Unbroken := fun a ha => hu a (hpast ▸ ha)
  rw [hunbroken.accepted_eq hpolled (hframes ▸ hsettled hok), hframes]

/-- One frame through a sink that takes two of its bytes and then fails. -/
def stoppedFlush : List (Act Script) :=
  [.stage (.packet { id := 5, payload := [7] }), .flush, .poll, .flush]

/-- After a flush that failed midway, the next one begins with the same bytes. -/
theorem flush_starts_over_failed :
    let sink : Script := { writes := [.accept 2, .fail (.ofKind .brokenPipe)] }
    let d := (start {} sink {}).run stoppedFlush
    d.attempts = [{}, { staged := [2, 5, 7], taken := [2, 5] }, { staged := [2, 5, 7] }] ∧
      d.sink.accepted = taken d.attempts ∧ settled d.attempts ++ d.outbox.staged = d.frames ∧
      ∃ call, d.call = some call ∧ (call.poll d.outbox d.sink).1 = .done (.ok ()) ∧
        settled (d.step .poll).attempts = d.frames := by
  intro sink d
  obtain ⟨haccepted, -, hframes, -, hok⟩ :=
    flush_starts_over {} sink {} stoppedFlush
  have hcall : d.call = some (.flush (.writing 3 [2, 5, 7])) := by decide +kernel
  have hdone : ((Outbox.Call.flush (.writing 3 [2, 5, 7])).poll d.outbox d.sink).1 =
      .done (.ok ()) := by decide +kernel
  exact ⟨by decide +kernel, haccepted, hframes, _, hcall, hdone, (hok _ hcall hdone).1⟩

/-- A flush that is tried again sends bytes twice. -/
theorem retried_flush_repeats :
    let sink : Script := { writes := [.accept 2, .fail (.ofKind .brokenPipe)] }
    let d := (start {} sink {}).run (stoppedFlush ++ [.poll])
    d.frames = [2, 5, 7] ∧ d.sink.accepted = [2, 5, 2, 5, 7] ∧ d.call = none ∧
      ¬ d.sink.accepted <+: d.frames :=
  ⟨by decide +kernel, by decide +kernel, by decide +kernel, by decide +kernel⟩

end Dispatch

end PacketWire
