import PacketWire.Proofs.Endpoint.Tapped
import PacketWire.Proofs.Inbox.Cancelled
import PacketWire.Proofs.VarInt.Coding

/-!
# How much a poll reads

The answers of a `Source` run out, so a poll over one ends. Here nothing is known of the source: it
may answer at once and for ever, a byte at a time. `Inbox.round` is one round of the loop of a poll
over it, and `Inbox.rounds` makes so many of them; over a source whose answers run out they come to
`Inbox.poll` (`eq_poll_of_rounds`). What ends them is the frame limit. A stream turns to the source
only while its buffer holds a frame that has `Begun`, and that is always shorter than a longest
length and a longest frame; each read that the loop goes on after brings a byte.
-/

namespace PacketWire

namespace Frame

open VarInt

variable {max : Nat} {bs : Bytes}

/-- `bs` is the front of a frame that `max` allows, and not all of it. -/
def Begun (max : Nat) (bs : Bytes) : Prop :=
  (∃ more body, more ≠ [] ∧ Whole max (bs ++ more) body []) ∨
    bs.length < maxLength32 ∧ ∀ b ∈ bs, 128 ≤ b.toNat

theorem begun_of_length {s got : Bytes} {v : Int32} {n : Nat} (hs : Numeral32 s v)
    (hl : checkLength max v = .ok n) (hgot : got.length < n) : Begun max (s ++ got) := by
  obtain ⟨hv, hpos, hmax⟩ := checkLength_eq_ok_iff.mp hl
  have hlength : (got ++ Bytes.zeros (n - got.length)).length = n := by
    rw [List.length_append, Bytes.length_zeros]
    omega
  refine .inl ⟨Bytes.zeros (n - got.length), got ++ Bytes.zeros (n - got.length), ?_, s, v, ?_, hs,
    ?_⟩
  · intro hnil
    have := congrArg List.length hnil
    rw [Bytes.length_zeros, List.length_nil] at this
    omega
  · rw [List.append_nil, List.append_assoc]
  · rw [hlength]
    exact ⟨hv, hpos, hmax⟩

/-- Taking waits exactly for the rest of a frame that has begun. -/
theorem take_eq_none_iff_begun : take max bs = .ok none ↔ Begun max bs := by
  constructor
  · intro h
    unfold take at h
    split at h
    · rename_i hscan
      exact .inr (scan32_eq_needMore_iff.mp hscan)
    · cases h
    · rename_i v used hscan
      obtain ⟨s, got, rfl, hs, rfl⟩ := scan32_eq_found_iff.mp hscan
      split at h
      · cases h
      · rename_i n hl
        simp only [List.drop_left, List.length_take] at h
        split at h
        · exact begun_of_length hs hl (by omega)
        · cases h
  · rintro (⟨more, body, hmore, hwhole⟩ | hscan)
    · -- A verdict on the front would be the one on the whole frame, and leave `more` behind it.
      have hall := take_eq_some_iff_whole.mpr hwhole
      match ht : take max bs with
      | .ok none => rfl
      | .ok (some (front, rest)) =>
        rw [take_append_of_some ht, Except.ok.injEq, Option.some.injEq, Prod.mk.injEq] at hall
        exact absurd (List.append_eq_nil_iff.mp hall.2).2 hmore
      | .error e =>
        rw [take_append_of_error ht] at hall
        cases hall
    · simp only [take, scan32_eq_needMore_iff.mpr hscan]

theorem Begun.length_lt (h : Begun max bs) : bs.length < maxLength32 + max := by
  obtain ⟨more, body, hmore, s, v, happ, ⟨n, -, hs, -⟩, -, -, hbody⟩ | ⟨hlength, -⟩ := h
  · have hpos := List.length_pos_iff.mpr hmore
    have := congrArg List.length happ
    simp only [List.length_append, List.length_nil] at this
    omega
  · omega

end Frame

namespace Inbox

variable {σ : Type} (read : Nat → σ → Poll (Except IoError Bytes) × σ) {i : Inbox} {s : σ}
  {r : Reserves} {cancelled : Bool}

/-! ## The loop of a poll -/

/-- What a round comes to. -/
inductive Round (σ : Type) where
  | answer (a : Answer σ)
  | again (i : Inbox) (s : σ) (r : Reserves)

def Round.inbox : Round σ → Inbox
  | .answer a => a.inbox
  | .again i _ _ => i

def afterRead (i : Inbox) (s : σ) (r : Reserves) : Poll (Except IoError Bytes) → Round σ
  | .pending => .answer { next := .pending, inbox := i.prepare, source := s, reserves := r }
  | .ready (.error e) =>
    .answer { next := .ready (some (.error (.io e))), inbox := i.finish, source := s,
              reserves := r }
  | .ready (.ok []) =>
    .answer { next := .ready i.ending, inbox := i.finish, source := s, reserves := r }
  | .ready (.ok (b :: bs)) =>
    .again { i.prepare with buffer := i.buffer ++ b :: bs, phase := .draining } s r

/-- One round of the loop, with what the buffer holds where it reads. -/
def round (cancelled : Bool) (i : Inbox) (s : σ) (r : Reserves) : List Bytes × Round σ :=
  match i.phase with
  | .over => ([], .answer (i.idle s r))
  | .draining =>
    if cancelled then ([], .answer (i.finish.idle s r))
    else
      let t := i.codec.next i.buffer r
      match t.result with
      | .ok (some p) =>
        ([], .answer { next := .ready (some (.ok p)), inbox := i.keep t.left, source := s,
                       reserves := t.reserves })
      | .error e =>
        ([], .answer { next := .ready (some (.error e)), inbox := i.finish, source := s,
                       reserves := t.reserves })
      | .ok none => ([], .again (i.keep t.left).gather s t.reserves)
  | .gathering =>
    if cancelled then ([], .answer (i.finish.idle s r))
    else
      let (answer, s) := read i.room s
      ([i.buffer], i.afterRead s r answer)

/-- At most `n` rounds: what the buffer holds at each read, and the answer if one of them gives
it. -/
def rounds (cancelled : Bool) : Nat → Inbox → σ → Reserves → List Bytes × Option (Answer σ)
  | 0, _, _, _ => ([], none)
  | n + 1, i, s, r =>
    match round read cancelled i s r with
    | (held, .answer a) => (held, some a)
    | (held, .again i s r) =>
      let (more, a) := rounds cancelled n i s r
      (held ++ more, a)

/-! ## The same as a poll -/

theorem poll_eq_round [Source σ] (cancelled : Bool) (i : Inbox) (s : σ) (r : Reserves) :
    i.poll cancelled s r =
      match (round Source.read cancelled i s r).2 with
      | .answer a => a
      | .again i s r => i.poll cancelled s r := by
  match hp : i.phase, cancelled with
  | .over, cancelled =>
    rw [poll_of_over hp]
    simp only [round, hp, idle]
  | .draining, true =>
    rw [poll_cancelled (by simp [hp])]
    simp only [round, hp, if_true]
  | .gathering, true =>
    rw [poll_cancelled (by simp [hp])]
    simp only [round, hp, if_true]
  | .draining, false =>
    rw [poll_of_draining hp]
    simp only [round, hp, Bool.false_eq_true, if_false]
    rcases (i.codec.next i.buffer r).result with _ | _ | _ <;> rfl
  | .gathering, false =>
    rw [poll_of_gathering hp]
    simp only [round, hp, Bool.false_eq_true, if_false]
    rcases Source.read i.room s with ⟨_ | _ | _ | _, s'⟩ <;> rfl

/-- Over a source whose answers run out, the rounds give the answer of the poll. -/
theorem eq_poll_of_rounds [Source σ] {n : Nat} {a : Answer σ}
    (h : (rounds Source.read cancelled n i s r).2 = some a) : a = i.poll cancelled s r := by
  induction n generalizing i s r with
  | zero => cases h
  | succ n ih =>
    rw [poll_eq_round]
    simp only [rounds] at h
    split at h <;> rename_i hround
    · cases h
      rw [hround]
    · rw [hround]
      exact ih h

/-- How many bytes may still come before the first frame is decided. -/
def slack (i : Inbox) : Nat := VarInt.maxLength32 + i.codec.maxFrame - i.buffer.length

/-- A bound on the rounds that are left. -/
def toGo (i : Inbox) : Nat := 2 * i.slack + i.phase.rank + 1

def Round.slack : Round σ → Nat
  | .answer _ => 0
  | .again i _ _ => i.slack

def Round.toGo : Round σ → Nat
  | .answer _ => 0
  | .again i _ _ => i.toGo

/-- What a round does, with the reads that it makes. -/
structure Rounded (i : Inbox) (held : List Bytes) (x : Round σ) : Prop where
  codec : x.inbox.codec = i.codec
  hungry : x.inbox.Hungry
  incomplete : ∀ bs ∈ held, Frame.take i.codec.maxFrame bs = .ok none
  reads : held.length + x.slack ≤ i.slack
  lessens : x.toGo < i.toGo

theorem Rounded.of_answer {a : Answer σ} (hcodec : a.inbox.codec = i.codec)
    (hungry : a.inbox.Hungry) : Rounded i [] (.answer a) where
  codec := hcodec
  hungry := hungry
  incomplete := by simp
  reads := Nat.zero_le _
  lessens := Nat.succ_pos _

theorem slack_pos (h : Frame.take i.codec.maxFrame i.buffer = .ok none) : 0 < i.slack :=
  Nat.sub_pos_of_lt (Frame.take_eq_none_iff_begun.mp h).length_lt

theorem Rounded.of_last {a : Answer σ} (h : Frame.take i.codec.maxFrame i.buffer = .ok none)
    (hcodec : a.inbox.codec = i.codec) (hungry : a.inbox.Hungry) :
    Rounded i [i.buffer] (.answer a) where
  codec := hcodec
  hungry := hungry
  incomplete := by simpa using h
  reads := slack_pos h
  lessens := Nat.succ_pos _

theorem Rounded.of_data {j : Inbox} (h : Frame.take i.codec.maxFrame i.buffer = .ok none)
    (hcodec : j.codec = i.codec) (hphase : j.phase = .draining)
    (hlength : i.buffer.length < j.buffer.length) : Rounded i [i.buffer] (.again j s r) where
  codec := hcodec
  hungry := hungry_of_draining hphase
  incomplete := by simpa using h
  reads := by
    have hpos := slack_pos h
    simp only [Round.slack, slack, hcodec, List.length_singleton] at hpos ⊢
    omega
  lessens := by
    have hpos := slack_pos h
    simp only [Round.toGo, toGo, slack, hcodec, hphase, Phase.rank] at hpos ⊢
    omega

theorem Rounded.of_drained {j : Inbox} (h : Frame.take i.codec.maxFrame i.buffer = .ok none)
    (hi : i.phase = .draining) (hcodec : j.codec = i.codec) (hphase : j.phase = .gathering)
    (hbuffer : j.buffer = i.buffer) : Rounded i [] (.again j s r) where
  codec := hcodec
  hungry _ := by
    show Frame.take j.codec.maxFrame j.buffer = .ok none
    rw [hcodec, hbuffer, h]
  incomplete := by simp
  reads := by simp [Round.slack, slack, hcodec, hbuffer]
  lessens := by simp [Round.toGo, toGo, slack, hcodec, hbuffer, hi, hphase, Phase.rank]

theorem rounded_afterRead (h : Frame.take i.codec.maxFrame i.buffer = .ok none) (s : σ)
    (r : Reserves) (answer : Poll (Except IoError Bytes)) :
    Rounded i [i.buffer] (i.afterRead s r answer) := by
  unfold afterRead
  split
  · exact .of_last h rfl fun _ => h
  · exact .of_last h rfl (hungry_finish i)
  · exact .of_last h rfl (hungry_finish i)
  · exact .of_data h rfl rfl (by simp)

theorem rounded_of_round (h : i.Hungry) {held : List Bytes} {x : Round σ}
    (hx : round read cancelled i s r = (held, x)) : Rounded i held x := by
  unfold round at hx
  split at hx <;> rename_i hp
  · cases hx
    exact .of_answer rfl h
  · split at hx
    · cases hx
      exact .of_answer rfl (hungry_finish i)
    · simp only at hx
      split at hx <;> rename_i ht <;> cases hx
      · have hphase : (i.keep (i.codec.next i.buffer r).left).phase = .draining := hp
        exact .of_answer rfl (hungry_of_draining hphase)
      · exact .of_answer rfl (hungry_finish i)
      · have hnone := Codec.next_eq_none_iff.mp ht
        exact .of_drained hnone hp rfl rfl (Codec.next_of_no_take r hnone).2
  · split at hx
    · cases hx
      exact .of_answer rfl (hungry_finish i)
    · cases hx
      exact rounded_afterRead (h hp) _ _ _

/-! ## All rounds -/

variable {read}

/-- Each read is made while the first frame is incomplete, and there are no more than bytes that may
still come. -/
theorem rounds_reads (cancelled : Bool) (h : i.Hungry) (s : σ) (r : Reserves) (n : Nat) :
    (rounds read cancelled n i s r).1.length ≤ i.slack ∧
      ∀ bs ∈ (rounds read cancelled n i s r).1, Frame.take i.codec.maxFrame bs = .ok none := by
  induction n generalizing i s r with
  | zero => simp [rounds]
  | succ n ih =>
    simp only [rounds]
    split <;> rename_i hx <;> have hround := rounded_of_round read h hx
    · exact ⟨hround.reads, hround.incomplete⟩
    · rename_i held j s' r'
      obtain ⟨hlength, hincomplete⟩ := ih (i := j) hround.hungry s' r'
      have hreads : held.length + j.slack ≤ i.slack := hround.reads
      rw [show j.codec = i.codec from hround.codec] at hincomplete
      refine ⟨?_, fun bs hbs => ?_⟩
      · rw [List.length_append]
        omega
      · obtain hbs | hbs := List.mem_append.mp hbs
        · exact hround.incomplete bs hbs
        · exact hincomplete bs hbs

/-- The rounds that are left are enough. -/
theorem exists_answer (cancelled : Bool) (h : i.Hungry) (s : σ) (r : Reserves) :
    ∃ a, ∀ n, i.toGo ≤ n → (rounds read cancelled n i s r).2 = some a := by
  induction hm : i.toGo using Nat.strongRecOn generalizing i s r with
  | ind m ih =>
    match hx : round read cancelled i s r with
    | (held, .answer a) =>
      refine ⟨a, fun n hn => ?_⟩
      obtain ⟨n, rfl⟩ : ∃ k, n = k + 1 := ⟨n - 1, by simp only [toGo] at hm; omega⟩
      simp only [rounds, hx]
    | (held, .again j s' r') =>
      have hround := rounded_of_round read h hx
      have hless : j.toGo < i.toGo := hround.lessens
      obtain ⟨a, ha⟩ := ih j.toGo (hm ▸ hless) hround.hungry s' r' rfl
      refine ⟨a, fun n hn => ?_⟩
      obtain ⟨n, rfl⟩ : ∃ k, n = k + 1 := ⟨n - 1, by omega⟩
      simp only [rounds, hx]
      exact ha n (by omega)

theorem answer_of_rounds (h : i.Hungry) {n : Nat} {a : Answer σ}
    (ha : (rounds read cancelled n i s r).2 = some a) :
    a.inbox.codec = i.codec ∧ a.inbox.Hungry := by
  induction n generalizing i s r with
  | zero => cases ha
  | succ n ih =>
    simp only [rounds] at ha
    split at ha <;> rename_i hx <;> have hround := rounded_of_round read h hx
    · cases ha
      exact ⟨hround.codec, hround.hungry⟩
    · obtain ⟨hcodec, hungry⟩ := ih hround.hungry ha
      exact ⟨hcodec.trans hround.codec, hungry⟩

variable (read) in
/-- What a stream with codec `c` may have become after any polls, whatever others do meanwhile. -/
inductive Reached (c : Codec) (chunk : Nat) : Inbox → Prop where
  | start : Reached c chunk { codec := c, chunk }
  | switched {i : Inbox} (threshold : Int32) : Reached c chunk i →
      Reached c chunk (i.switch threshold)
  | polled {i : Inbox} {s : σ} {r : Reserves} {cancelled : Bool} {n : Nat} {a : Answer σ} :
      Reached c chunk i → (rounds read cancelled n i s r).2 = some a → Reached c chunk a.inbox

theorem Reached.hungry {c : Codec} {chunk : Nat} (h : Reached read c chunk i) :
    i.codec.maxFrame = c.maxFrame ∧ i.Hungry := by
  induction h with
  | start => exact ⟨rfl, fun _ => Frame.take_nil _⟩
  | switched threshold _ ih => exact ih
  | polled _ ha ih =>
    obtain ⟨hcodec, hungry⟩ := answer_of_rounds ih.2 ha
    exact ⟨(congrArg Codec.maxFrame hcodec).trans ih.1, hungry⟩

/-- Wherever a poll reads, its buffer holds a frame that has begun, of a length that the limit
allows, and so less than a longest length and a longest frame. After as many reads the poll has its
answer. -/
theorem reads_within_limit (read : Nat → σ → Poll (Except IoError Bytes) × σ) {c : Codec}
    {chunk : Nat} {i : Inbox} (h : Reached read c chunk i) (cancelled : Bool) (s : σ)
    (r : Reserves) :
    let limit := 5 + c.maxFrame
    (∀ n,
      let held := (rounds read cancelled n i s r).1
      held.length ≤ limit ∧
      ∀ bs ∈ held, Frame.take c.maxFrame bs = .ok none ∧ Frame.Begun c.maxFrame bs ∧
        bs.length < limit) ∧
    ∃ a, (∀ n, 2 * limit + 2 ≤ n → (rounds read cancelled n i s r).2 = some a) ∧
      ∀ [Source σ], Source.read = read → a = i.poll cancelled s r := by
  intro limit
  obtain ⟨hmax, hungry⟩ := h.hungry
  have hslack : i.slack ≤ limit := by
    rw [slack, hmax]
    exact Nat.sub_le _ _
  refine ⟨fun n => ?_, ?_⟩
  · obtain ⟨hlength, hincomplete⟩ := rounds_reads cancelled hungry s r n
    rw [hmax] at hincomplete
    refine ⟨Nat.le_trans hlength hslack, fun bs hbs => ?_⟩
    have hbegun := Frame.take_eq_none_iff_begun.mp (hincomplete bs hbs)
    exact ⟨hincomplete bs hbs, hbegun, hbegun.length_lt⟩
  · obtain ⟨a, ha⟩ := exists_answer cancelled hungry s r
    have henough : i.toGo ≤ 2 * limit + 2 := by
      have hrank : i.phase.rank ≤ 1 := by cases i.phase <;> decide
      simp only [toGo]
      omega
    refine ⟨a, fun n hn => ha n (Nat.le_trans henough hn), fun hread => ?_⟩
    subst hread
    exact eq_poll_of_rounds (ha _ (Nat.le_refl _))

/-- A peer that sends one byte for ever: four of them are a frame, long before the limit. -/
theorem reads_within_limit_endless :
    let read : Nat → Nat → Poll (Except IoError Bytes) × Nat :=
      fun _ sent => (.ready (.ok [3]), sent + 1)
    let c : Codec := { maxFrame := 3 }
    let i : Inbox := { codec := c, chunk := 1 }
    Reached read c 1 i ∧
      (rounds read false 18 i 0 {}).1 = [[], [3], [3, 3], [3, 3, 3]] ∧
      (∀ n, (rounds read false n i 0 {}).1.length ≤ 8) ∧
      ∃ a, a.source = 4 ∧ ∀ n, 18 ≤ n → (rounds read false n i 0 {}).2 = some a := by
  intro read c i
  have hstart : Reached read c 1 i := .start
  obtain ⟨hreads, a, hanswer, -⟩ := reads_within_limit read hstart false 0 {}
  have hheld : (rounds read false 18 i 0 {}).1 = [[], [3], [3, 3], [3, 3, 3]] := by decide +kernel
  have hsource : (rounds read false 18 i 0 {}).2.map (·.source) = some 4 := by decide +kernel
  rw [hanswer 18 (Nat.le_refl _)] at hsource
  exact ⟨hstart, hheld, fun n => (hreads n).1, a, Option.some.inj hsource, hanswer⟩

end Inbox

end PacketWire
