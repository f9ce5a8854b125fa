import PacketWire.Proofs.FrameRead.Endings
import PacketWire.Proofs.VarInt.Coding

/-!
# Numbers off a stream

A number that is read byte by byte is the one that the bytes of the whole stream begin with, and
its bytes are all that is taken off the stream (`NumberRead.reads_as_decoded`).
`NumberRead.outcome` says what is left to happen to a number of which some groups have been read,
on the bytes still to come.
-/

namespace PacketWire

open VarInt

variable {σ : Type} [Source σ]

theorem Noted.read_of_inner {room : Nat} {s : Noted σ} {answer : Poll (Except IoError Bytes)}
    {s' : σ} (h : Source.read room s.inner = (answer, s')) :
    ∃ t : Noted σ, Source.read room s = (answer, t) ∧ t.inner = s' ∧
      Ask.givenBy t.asks = Ask.givenBy s.asks ++ Ask.given { room, answer } := by
  refine ⟨{ inner := s', asks := s.asks ++ [{ room, answer }] }, ?_, rfl, by simp [Ask.givenBy]⟩
  show s.read room = _
  rw [read, h]

namespace VarInt.NumberRead

/-- What the bytes to come make of the number, and how many of them are taken for it. -/
def outcome (n : NumberRead) (w : Bytes) : Except WireError (Option Int32) × Nat :=
  match n.scan w with
  | .found v k => (.ok (some v), k)
  | .needMore =>
    (if n.groups + w.length = 0 then .ok none else .error .unexpectedEndOfStream, w.length)
  | .invalid => (.error .malformedVarInt, maxLength32 - n.groups)

variable {n : NumberRead} {b : UInt8} {w : Bytes}

theorem outcome_nil (h : n.groups < maxLength32) :
    n.outcome [] = (n.failed (.ofKind .unexpectedEof), 0) := by
  rw [outcome, scan_nil h]
  rfl

theorem outcome_last (h : n.groups < maxLength32) (hb : b.toNat < 128) (w : Bytes) :
    n.outcome (b :: w) = (.ok (some (Int32.ofNat (n.add b).value)), 1) := by
  rw [outcome, scan_last h hb]

theorem outcome_full (h : maxLength32 ≤ n.groups) (w : Bytes) :
    n.outcome w = (.error .malformedVarInt, 0) := by
  rw [outcome, scan_of_full h, Nat.sub_eq_zero_of_le h]

theorem outcome_more (h : n.groups < maxLength32) (hb : 128 ≤ b.toNat) (w : Bytes) :
    n.outcome (b :: w) = (((n.add b).outcome w).1, ((n.add b).outcome w).2 + 1) := by
  have hgroups : (n.add b).groups = n.groups + 1 := rfl
  rw [outcome, scan_more h hb, outcome]
  cases (n.add b).scan w with
  | found v k => simp only [Scan.behind, Nat.add_comm]
  | needMore =>
    simp only [Scan.behind, hgroups, List.length_cons, Prod.mk.injEq, and_true]
    rw [if_neg (by omega), if_neg (by omega)]
  | invalid =>
    simp only [Scan.behind, hgroups, Prod.mk.injEq, true_and]
    omega

/-- The stream in which a number ends, or is refused, goes on behind it. -/
theorem scan_more_ne (h : n.groups < maxLength32) (hb : 128 ≤ b.toNat) {w : Bytes}
    (hw : n.scan (b :: w) ≠ .needMore) : (n.add b).scan w ≠ .needMore := by
  rw [scan_more h hb] at hw
  rintro hneed
  exact hw (by rw [hneed]; rfl)

theorem finish_congr {n' : NumberRead} {s s' : Noted σ} (h : n.poll s = n'.poll s') (polls : Nat) :
    finish poll (polls + 1) n s = finish poll (polls + 1) n' s' := by
  simp only [finish, drive, h]

/-- What `n` comes to on the stream `w` that the source inside `s` brings. -/
def Comes (n : NumberRead) (s : Noted σ) (w : Bytes) : Prop :=
  ∃ polls s', finish poll (polls + 1) n s = some ((n.outcome w).1, s') ∧
    Ask.givenBy s'.asks = Ask.givenBy s.asks ++ w.take (n.outcome w).2 ∧
    (n.scan w ≠ .needMore → Brings s'.inner (w.drop (n.outcome w).2))

theorem comes_of_yields {a : Poll (Except IoError Bytes) × σ} (h : Yields a w)
    (hlt : n.groups < maxLength32) {s : Noted σ} (hs : Source.read 1 s.inner = a) :
    n.Comes s w := by
  induction h generalizing n s with
  | pending _ ih =>
    obtain ⟨t, hread, rfl, hasks⟩ := Noted.read_of_inner hs
    obtain ⟨polls, s', hfinish, hgiven, hrest⟩ := ih 1 Nat.one_pos hlt rfl
    have hpoll := poll_of_pause hlt (readByte_of_pause hread)
    refine ⟨polls + 1, s', by rw [finish_of_waiting hpoll, hfinish], ?_, hrest⟩
    rw [hgiven, hasks]
    exact congrArg (· ++ _) (List.append_nil _)
  | disturbed he _ ih =>
    obtain ⟨t, hread, rfl, hasks⟩ := Noted.read_of_inner hs
    obtain ⟨polls, s', hfinish, hgiven, hrest⟩ := ih 1 Nat.one_pos hlt rfl
    have hpoll := poll_congr (readByte_of_disturbance hread he) hlt
    refine ⟨polls, s', by rw [finish_congr hpoll, hfinish], ?_, hrest⟩
    rw [hgiven, hasks]
    exact congrArg (· ++ _) (List.append_nil _)
  | @data _ b bs w hw ih =>
    obtain ⟨t, hread, rfl, hasks⟩ := Noted.read_of_inner hs
    obtain ⟨rfl, hbyte⟩ := readByte_of_data hread
    rw [Comes, List.singleton_append]
    by_cases hb : b.toNat < 128
    · have hpoll := poll_of_last hlt hbyte hb
      rw [outcome_last hlt hb]
      exact ⟨0, t, finish_of_done hpoll 0, hasks, fun _ => hw⟩
    · have hb : 128 ≤ b.toNat := Nat.not_lt.mp hb
      have hpoll := poll_of_more hlt hbyte hb
      rw [outcome_more hlt hb]
      by_cases hfull : maxLength32 ≤ (n.add b).groups
      · rw [poll_of_full hfull] at hpoll
        rw [outcome_full hfull]
        exact ⟨0, t, finish_of_done hpoll 0, hasks, fun _ => hw⟩
      · obtain ⟨polls, s', hfinish, hgiven, hrest⟩ := ih 1 Nat.one_pos (Nat.not_le.mp hfull) rfl
        refine ⟨polls, s', by rw [finish_congr hpoll, hfinish], ?_, ?_⟩
        · rw [hgiven, hasks, List.append_assoc]
          rfl
        · exact fun hne => hrest (scan_more_ne hlt hb hne)
  | closed =>
    obtain ⟨t, hread, -, hasks⟩ := Noted.read_of_inner hs
    have hpoll := poll_of_error hlt (readByte_of_end hread)
    rw [Comes, outcome_nil hlt]
    exact ⟨0, t, finish_of_done hpoll 0, hasks, fun hne => absurd (scan_nil hlt) hne⟩

theorem comes_of_brings {s : σ} (h : Brings s w) : Comes {} { inner := s } w :=
  comes_of_yields (h 1 Nat.one_pos) (by decide) rfl

/-- What reading a number off the stream `bs` comes to, having taken `taken` from it, is what
decoding says of `bs`. -/
structure ReadAs (bs : Bytes) (result : Except WireError (Option Int32)) (taken : Bytes) :
    Prop where
  front : taken <+: bs
  none_iff : result = .ok none ↔ bs = []
  found_iff : ∀ v k, result = .ok (some v) ∧ taken.length = k ↔ decode32? bs = .ok (v, k)
  malformed_iff : result = .error .malformedVarInt ∧ taken.length = maxLength32 ↔
    decode32? bs = .error .malformedVarInt
  cut_iff : bs ≠ [] →
    (result = .error .unexpectedEndOfStream ∧ taken = bs ↔
      decode32? bs = .error .unexpectedEndOfStream)

theorem readAs_outcome (bs : Bytes) :
    ReadAs bs (({} : NumberRead).outcome bs).1 (bs.take (({} : NumberRead).outcome bs).2) := by
  have hcodes := codes_exactly.1
  have hdecode : decode32? bs = (scan32 bs).complete := rfl
  have hnil : scan32 [] = .needMore := rfl
  simp only [outcome, scan_start, Nat.zero_add]
  cases hscan : scan32 bs with
  | found v k =>
    obtain ⟨-, ⟨init, last, rest, rfl, rfl, -⟩, -⟩ := (hcodes.found_iff bs v k).mp hscan
    simp only [hscan, Scan.complete] at hdecode
    exact ⟨List.take_prefix _ _, by simp, by simp [hdecode], by simp [hdecode], by simp [hdecode]⟩
  | needMore =>
    simp only [hscan, Scan.complete] at hdecode
    rw [List.take_length]
    refine ⟨bs.prefix_refl, ?_, fun v k => ?_, ?_, fun hbs => ?_⟩
    · by_cases hbs : bs = [] <;> simp [hbs]
    · rw [hdecode]
      by_cases hbs : bs = [] <;> simp [hbs]
    · rw [hdecode]
      by_cases hbs : bs = [] <;> simp [hbs]
    · simp [hdecode, hbs]
  | invalid =>
    have hlong : maxLength32 ≤ bs.length := ((hcodes.invalid_iff bs).mp hscan).1
    have hne : bs ≠ [] := by
      rintro rfl
      cases hnil.symm.trans hscan
    simp only [hscan, Scan.complete] at hdecode
    exact ⟨List.take_prefix _ _, by simp [hne], by simp [hdecode], by simp [hdecode, hlong],
      by simp [hdecode]⟩

/-- The results of reading up to so many numbers, up to the first result that is none. -/
def results (polls : Nat) : Nat → σ → List (Option (Except WireError (Option Int32)))
  | 0, _ => []
  | most + 1, s =>
    match finish poll polls {} s with
    | some (.ok (some v), s) => some (.ok (some v)) :: results polls most s
    | some (result, _) => [some result]
    | none => [none]

omit [Source σ] in
theorem outcome_encode (v : Int32) (rest : Bytes) :
    ({} : NumberRead).outcome (encode32 v ++ rest) = (.ok (some v), (encode32 v).length) := by
  rw [outcome, scan_start, codes_exactly.1.scan_encode v rest]

theorem finish_inner (polls : Nat) (s : Noted σ) :
    finish poll polls {} s.inner = (finish poll polls {} s).map (Prod.map id Noted.inner) := by
  unfold finish
  rw [drive_inner]
  rcases drive poll polls {} s with ⟨_ | _, s'⟩ <;> rfl

/-- What a number comes to, it comes to in any larger number of polls, and on the source itself. -/
theorem comes_in_time {s : σ} {bs : Bytes} (h : Brings s bs) :
    ∃ least s', (∀ polls, least ≤ polls →
        finish poll polls {} ({ inner := s } : Noted σ) =
            some ((({} : NumberRead).outcome bs).1, s') ∧
          finish poll polls {} s = some ((({} : NumberRead).outcome bs).1, s'.inner)) ∧
      Ask.givenBy s'.asks = bs.take (({} : NumberRead).outcome bs).2 ∧
      (scan32 bs ≠ .needMore → Brings s'.inner (bs.drop (({} : NumberRead).outcome bs).2)) := by
  obtain ⟨polls, s', hfinish, hgiven, hrest⟩ := comes_of_brings h
  rw [scan_start] at hrest
  refine ⟨polls + 1, s', fun most hle => ?_, hgiven, hrest⟩
  have hmost := finish_mono hfinish hle
  have hinner := finish_inner most ({ inner := s } : Noted σ)
  rw [hmost] at hinner
  exact ⟨hmost, hinner⟩

/-- Numbers one behind the other are read in their order, and then there is none. -/
theorem results_encode (vs : List Int32) {s : σ} (h : Brings s (vs.flatMap encode32)) :
    ∃ least, ∀ polls, least ≤ polls → ∀ most, vs.length < most →
      results polls most s = vs.map (fun v => some (.ok (some v))) ++ [some (.ok none)] := by
  induction vs generalizing s with
  | nil =>
    obtain ⟨least, s', hfinish, -⟩ := comes_in_time h
    refine ⟨least, fun polls hle most hmost => ?_⟩
    obtain ⟨most, rfl⟩ : ∃ k, most = k + 1 := ⟨most - 1, by omega⟩
    simp only [results, (hfinish polls hle).2]
    rfl
  | cons v vs ih =>
    rw [List.flatMap_cons] at h
    obtain ⟨least, s', hfinish, -, hrest⟩ := comes_in_time h
    simp only [outcome_encode, List.drop_left] at hfinish hrest
    have hscan := codes_exactly.1.scan_encode v (vs.flatMap encode32)
    obtain ⟨least', hothers⟩ := ih (hrest (by simp [hscan]))
    refine ⟨max least least', fun polls hle most hmost => ?_⟩
    obtain ⟨most, rfl⟩ : ∃ k, most = k + 1 := ⟨most - 1, by omega⟩
    rw [List.length_cons] at hmost
    simp only [results, (hfinish polls (by omega)).2]
    rw [hothers polls (by omega) most (by omega)]
    rfl

/-- A number read off a stream is the one that decoding finds at its front, with no byte taken
beyond it. -/
theorem reads_as_decoded {s : σ} {bs : Bytes} (h : Brings s bs) :
    (∃ least, ∀ polls, least ≤ polls → ∃ result s',
      finish poll polls {} ({ inner := s } : Noted σ) = some (result, s') ∧
      finish poll polls {} s = some (result, s'.inner) ∧
      ReadAs bs result (Ask.givenBy s'.asks)) ∧
    ∀ vs : List Int32, bs = vs.flatMap encode32 →
      ∃ least, ∀ polls, least ≤ polls →
        results polls (vs.length + 1) s =
          vs.map (fun v => some (.ok (some v))) ++ [some (.ok none)] := by
  constructor
  · obtain ⟨least, s', hfinish, hgiven, -⟩ := comes_in_time h
    refine ⟨least, fun polls hle => ?_⟩
    obtain ⟨hnoted, hplain⟩ := hfinish polls hle
    refine ⟨_, s', hnoted, hplain, ?_⟩
    rw [hgiven]
    exact readAs_outcome bs
  · rintro vs rfl
    obtain ⟨least, hresults⟩ := results_encode vs h
    exact ⟨least, fun polls hle => hresults polls hle _ (Nat.lt_succ_self _)⟩

/-- Two numbers in pieces that do not respect them, with a pause and a disturbance inside the
first. -/
theorem reads_as_decoded_in_pieces :
    let s : Script :=
      { reads := [.data [172], .pending, .fail (.ofKind .interrupted), .data [2, 5], .endOfStream] }
    Brings s [172, 2, 5] ∧
      (∃ least, ∀ polls, least ≤ polls → ∃ result s',
        finish poll polls {} ({ inner := s } : Noted Script) = some (result, s') ∧
        finish poll polls {} s = some (result, s'.inner) ∧
        ReadAs [172, 2, 5] result (Ask.givenBy s'.asks)) ∧
      ∃ least, ∀ polls, least ≤ polls →
        results polls 3 s = [some (.ok (some 300)), some (.ok (some 5)), some (.ok none)] := by
  intro s
  have hs : Brings s [172, 2, 5] :=
    Script.brings [.data [172], .pending, .fail (.ofKind .interrupted), .data [2, 5]] [.endOfStream]
      (by decide) rfl s rfl rfl
  have hencode : [172, 2, 5] = [300, 5].flatMap encode32 := by decide +kernel
  obtain ⟨hone, hmany⟩ := reads_as_decoded hs
  exact ⟨hs, hone, hmany [300, 5] hencode⟩

end VarInt.NumberRead

end PacketWire
