import PacketWire.Proofs.Endpoint.Copy
import PacketWire.Proofs.Endpoint.Feed

/-!
# Copying into a pipe

A transport `Delivers` what it holds in any pieces and with any pauses, whatever is written
meanwhile. `Fetched` is what a poll of a copy from such a source into a pipe does: no byte is lost
or doubled on its way, and where it has to wait, it has either come closer to the end of what there
is or left something in the pipe. A pipe is shut down at once, so the copy never waits for that.
-/

namespace PacketWire

/-! ## What a source hands out -/

section

variable {σ : Type} [Source σ]

/-- What an answer hands out of `w`, which `e` follows. -/
def Hands (holds : σ → Bytes → Prop) (e : Ending) (w : Bytes) :
    Poll (Except IoError Bytes) × σ → Prop
  | (.pending, s) => holds s w
  | (.ready (.ok []), _) => w = [] ∧ e = .closed
  | (.ready (.ok (b :: bs)), s) => ∃ w', w = b :: bs ++ w' ∧ holds s w'
  | (.ready (.error x), _) => w = [] ∧ e = .failed x

/-- Whether a source with `holds s w` hands out `w` and then `e`. -/
def HandsOut (holds : σ → Bytes → Prop) (e : Ending) : Prop :=
  ∀ (room : Nat) (s : σ) (w : Bytes), 0 < room → holds s w → Hands holds e w (Source.read room s)

/-- Whether `pauses` bounds how often the source will still let its reader wait. -/
def PausesWithin (holds : σ → Bytes → Prop) (pauses : σ → Nat) : Prop :=
  ∀ (room : Nat) (s : σ) (w : Bytes), 0 < room → holds s w →
    pauses (Source.read room s).2 ≤ pauses s ∧
      ((Source.read room s).1 = .pending → pauses (Source.read room s).2 < pauses s)

end

section

variable {τ : Type} [Transport τ]

/-- Whether `Q` survives whatever is written. -/
structure Survives {κ : Type} [Sink κ] (Q : κ → Prop) : Prop where
  write : ∀ {bs : Bytes} {k : κ}, Q k → Q (Sink.write bs k).2
  flush : ∀ {k : κ}, Q k → Q (Sink.flush k).2
  shutdown : ∀ {k : κ}, Q k → Q (Sink.shutdown k).2

/-- Whoever reads on from `t` with `holds t w` is handed `w` and then `e`, whichever of the `acts`
happen meanwhile. -/
structure Delivers (acts : (τ → τ) → Prop) (holds : τ → Bytes → Prop) (e : Ending) : Prop where
  read : HandsOut holds e
  survives : ∀ w, Survives (holds · w)
  elsewhere : ∀ {act : τ → τ} {t : τ} {w : Bytes}, acts act → holds t w → holds (act t) w

/-- Whether `pauses` bounds how often the transport will still let its reader wait. -/
structure Prompt (acts : (τ → τ) → Prop) (holds : τ → Bytes → Prop) (pauses : τ → Nat) : Prop where
  read : PausesWithin holds pauses
  survives : ∀ w n, Survives fun t => holds t w ∧ pauses t ≤ n
  elsewhere : ∀ {act : τ → τ} {t : τ} {w : Bytes}, acts act → holds t w → pauses (act t) ≤ pauses t

/-! ### Recorded transports -/

variable {holds : τ → Bytes → Prop} {e : Ending} {pauses : τ → Nat}

theorem HandsOut.recorded (h : HandsOut holds e) :
    HandsOut (fun (k : Recorded τ) w => holds k.inner w) e := by
  intro room k w hroom hk
  have hhands : Hands holds e w (Source.read room k.inner) := h _ _ _ hroom hk
  show Hands _ e w (Recorded.onInner (Source.read room) k)
  unfold Recorded.onInner
  generalize Source.read room k.inner = answer at hhands
  obtain ⟨_ | _ | _ | _, t⟩ := answer <;> exact hhands

theorem PausesWithin.recorded (h : PausesWithin holds pauses) :
    PausesWithin (fun (k : Recorded τ) w => holds k.inner w) fun k => pauses k.inner :=
  fun room k w hroom hk => h room k.inner w hroom hk

theorem Survives.recorded {Q : τ → Prop} (h : Survives Q) :
    Survives fun k : Recorded τ => Q k.inner where
  write hk := h.write hk
  flush hk := h.flush hk
  shutdown hk := h.shutdown hk

end

/-! ### Scripts -/

namespace Script

/-- Whether a script still plays `w`, with pauses in between, and ends. -/
structure Plays (s : Script) (w : Bytes) : Prop where
  ends : s.stalls = false
  goesOn : ∀ x ∈ s.reads, x.goesOn = true
  bytes : s.reads.flatMap (·.bytes) = w

def pauses (s : Script) : Nat := s.reads.countP (· = .pending)

theorem write_aside (bs : Bytes) (s : Script) :
    (s.write bs).2.stalls = s.stalls ∧ (s.write bs).2.reads = s.reads := by
  unfold write
  split <;> exact ⟨rfl, rfl⟩

theorem plays_delivers : Delivers (fun _ => False) Plays .closed where
  read room s w hroom hs := by
    show Hands Plays .closed w (s.read room)
    obtain ⟨hends, hgoes, rfl⟩ := hs
    unfold read
    split <;> rename_i hr <;> rw [hr] at hgoes ⊢
    · rw [hends]
      exact ⟨rfl, rfl⟩
    · exact ⟨hends, fun x hx => hgoes x (.tail _ hx), rfl⟩
    · exact absurd (hgoes _ (.head _)) (by simp [ReadEvent.goesOn])
    · exact absurd (hgoes _ (.head _)) (by simp [ReadEvent.goesOn])
    · rename_i bs es
      have hne : bs ≠ [] := by simpa [ReadEvent.goesOn] using hgoes _ (.head _)
      obtain ⟨b, bs, rfl⟩ := List.exists_cons_of_ne_nil hne
      obtain ⟨room, rfl⟩ : ∃ k, room = k + 1 := ⟨room - 1, by omega⟩
      have hes : ∀ x ∈ es, x.goesOn = true := fun x hx => hgoes x (.tail _ hx)
      refine ⟨bs.drop room ++ es.flatMap (·.bytes), ?_, hends, ?_, ?_⟩
      · simp [ReadEvent.bytes, ← List.append_assoc]
      · show ∀ x ∈ if (b :: bs).length ≤ room + 1 then es else _, x.goesOn = true
        split
        · exact hes
        · rename_i hlong
          refine List.forall_mem_cons.mpr ⟨?_, hes⟩
          simp only [List.length_cons] at hlong
          simp [ReadEvent.goesOn]
          omega
      · show (if (b :: bs).length ≤ room + 1 then es else _).flatMap (·.bytes) = _
        split
        · rename_i hshort
          simp only [List.length_cons] at hshort
          rw [List.drop_eq_nil_of_le (by omega), List.nil_append]
        · rfl
  survives w :=
    { write := fun {bs s} hs => by
        show ((s.write bs).2).Plays w
        obtain ⟨hstalls, hreads⟩ := s.write_aside bs
        exact ⟨hstalls.trans hs.ends, hreads ▸ hs.goesOn, hreads ▸ hs.bytes⟩
      flush := fun hs => ⟨hs.ends, hs.goesOn, hs.bytes⟩
      shutdown := fun hs => ⟨hs.ends, hs.goesOn, hs.bytes⟩ }
  elsewhere hact := hact.elim

theorem plays_prompt : Prompt (fun _ => False) Plays pauses where
  read room s w hroom hs := by
    show (s.read room).2.pauses ≤ s.pauses ∧
      ((s.read room).1 = .pending → (s.read room).2.pauses < s.pauses)
    unfold read pauses
    split <;> rename_i hr <;> rw [hr]
    · simp [hs.ends]
    · simp
    · simp
    · simp
    · simp only [List.countP_cons]
      split <;> simp
  survives w n :=
    { write := fun {bs s} hs => by
        refine ⟨(plays_delivers.survives w).write hs.1, ?_⟩
        show (s.write bs).2.pauses ≤ n
        unfold pauses
        rw [(s.write_aside bs).2]
        exact hs.2
      flush := fun hs => ⟨(plays_delivers.survives w).flush hs.1, hs.2⟩
      shutdown := fun hs => ⟨(plays_delivers.survives w).shutdown hs.1, hs.2⟩ }
  elsewhere hact := hact.elim

end Script

namespace Copy

section

variable {σ κ : Type} [Source σ] [Sink κ]

/-- A copy that is cancelled stops where it stands, unless it is shutting the sink down. -/
theorem poll_of_cancelled {c : Copy} (h : c.phase ≠ .closing) (s : σ) (k : κ) :
    c.poll true s k = (.done (.error .cancelled), s, k) := by
  rw [poll]
  split
  · rename_i hc
    exact absurd hc h
  all_goals rw [if_pos rfl]

/-- What every call on the sink keeps, a copy keeps. -/
theorem poll_preserves {Q : κ → Prop} (h : Survives Q) (cancelled : Bool) (c : Copy) (s : σ) (k : κ)
    (hk : Q k) : Q (c.poll cancelled s k).2.2 := by
  have hw : ∀ bs k, Q k → Q (Sink.write bs k).2 := fun _ _ => h.write
  have hfinish (c : Copy) (s : σ) (k : κ) (hk : Q k) : Q (c.finish s k).2.2 := by
    unfold finish
    split <;> rename_i hshut <;> simpa only [hshut] using h.shutdown hk
  fun_induction poll cancelled c s k with
  | case1 c s k hc => exact hfinish c s k hk
  | case2 => exact hk
  | case3 => exact hk
  | case4 => exact hk
  | case5 c s k hc hcan s' hr => exact hfinish c s' k hk
  | case6 c s k hc hcan b bs s' hr ih => exact ih hk
  | case7 => exact hk
  | case8 c s k n bs hc hcan rest k' hwrite =>
    simpa only [hwrite] using writeAll_preserves hw bs k hk
  | case9 c s k n bs hc hcan e k' hwrite =>
    simpa only [hwrite] using writeAll_preserves hw bs k hk
  | case10 c s k n bs hc hcan k' hwrite ih =>
    exact ih (by simpa only [hwrite] using writeAll_preserves hw bs k hk)
  | case11 => exact hk
  | case12 c s k n hc hcan k' hflush => simpa only [hflush] using h.flush hk
  | case13 c s k n hc hcan e k' hflush => simpa only [hflush] using h.flush hk
  | case14 c s k n hc hcan k' hflush ih => exact ih (by simpa only [hflush] using h.flush hk)

end

variable {σ : Type} [Source σ] {cancelled : Bool} {c c' : Copy} {s s' : σ} {p p' : Pipe}
  {w w' : Bytes}

omit [Source σ] in
theorem finish_eq (c : Copy) (s : σ) (p : Pipe) :
    c.finish s p = (.done (.ok c.total), s, p.close) :=
  rfl

theorem phase_ne_closing (h : c.poll cancelled s p = (.waiting c', s', p')) :
    c'.phase ≠ .closing := by
  fun_induction poll cancelled c s p with
  | case1 c s p hc => cases (finish_eq c s p).symm.trans h
  | case2 => cases h
  | case3 c s p hc hcan s1 hr =>
    cases h
    simp [hc]
  | case4 => cases h
  | case5 c s p hc hcan s1 hr => cases (finish_eq c s1 p).symm.trans h
  | case6 c s p hc hcan b bs s1 hr ih => exact ih h
  | case7 => cases h
  | case8 c s p n bs hc hcan rest p1 hw =>
    cases h
    simp
  | case9 => cases h
  | case10 c s p n bs hc hcan p1 hw ih => exact ih h
  | case11 => cases h
  | case12 c s p n hc hcan p1 hf =>
    cases h
    simp [hc]
  | case13 => cases h
  | case14 c s p n hc hcan p1 hf ih => exact ih h

/-! ## Fetching -/

theorem room_pos (c : Copy) : 0 < c.room :=
  Nat.lt_of_lt_of_le Nat.one_pos (Nat.le_max_right ..)

/-- How far a copy is from having everything in the pipe, if `w` is still to be read. -/
def toFetch (pauses : σ → Nat) (c : Copy) (s : σ) (w : Bytes) : Nat :=
  pauses s + 2 * w.length + c.rest.length

/-- What a poll of a copy has done with what was in the pipe, on its way and in the source. -/
def Fetched (holds : σ → Bytes → Prop) (e : Ending) (c : Copy) (s : σ) (p : Pipe) (w : Bytes) :
    Progress Copy (Except WireError Nat) × σ × Pipe → Prop
  | (.waiting c', s', p') =>
    p'.closed = false ∧ p'.limit = p.limit ∧ ∃ w', holds s' w' ∧
      p'.held ++ (c'.rest ++ w') = p.held ++ (c.rest ++ w) ∧
      ∀ pauses, PausesWithin holds pauses →
        c'.toFetch pauses s' w' ≤ c.toFetch pauses s w ∧
          (c'.toFetch pauses s' w' < c.toFetch pauses s w ∨ p'.held ≠ [])
  | (.done (.ok _), _, p') =>
    e = .closed ∧ p'.closed = true ∧ p'.limit = p.limit ∧ p'.held = p.held ++ (c.rest ++ w)
  | (.done (.error _), _, _) => True

variable {holds : σ → Bytes → Prop} {e : Ending}

theorem Fetched.congr {a : Progress Copy (Except WireError Nat) × σ × Pipe}
    (hbytes : p'.held ++ (c'.rest ++ w') = p.held ++ (c.rest ++ w)) (hlimit : p'.limit = p.limit)
    (hfetch : ∀ pauses, PausesWithin holds pauses →
      c'.toFetch pauses s' w' ≤ c.toFetch pauses s w)
    (h : Fetched holds e c' s' p' w' a) : Fetched holds e c s p w a := by
  obtain ⟨_ | _ | _, _, _⟩ := a
  · obtain ⟨hclosed, hl, w'', hholds, hsum, hmeasure⟩ := h
    refine ⟨hclosed, hl.trans hlimit, w'', hholds, hsum.trans hbytes, fun pauses hp => ?_⟩
    obtain ⟨hle, hless⟩ := hmeasure pauses hp
    have hbefore := hfetch pauses hp
    exact ⟨Nat.le_trans hle hbefore, hless.imp (fun hlt => Nat.lt_of_lt_of_le hlt hbefore) id⟩
  · trivial
  · obtain ⟨hend, hclosed, hl, hheld⟩ := h
    exact ⟨hend, hclosed, hl.trans hlimit, hheld.trans hbytes⟩

theorem fetched_poll (h : HandsOut holds e) (hphase : c.phase ≠ .closing)
    (hopen : p.closed = false) (hl : p.limit ≠ some 0) (hs : holds s w) :
    Fetched holds e c s p w (c.poll false s p) := by
  generalize hlive : false = cancelled
  fun_induction poll cancelled c s p generalizing w with
  | case1 c s p hc => exact absurd hc hphase
  | case2 c s p hc hcan => exact absurd (hlive.trans hcan) (by simp)
  | case3 c s p hc hcan s1 hr =>
    have hhands : Hands holds e w (Source.read c.room s) := h _ _ _ c.room_pos hs
    rw [hr] at hhands
    refine ⟨hopen, rfl, w, hhands, rfl, fun pauses hp => ?_⟩
    obtain ⟨-, hlt⟩ := hp _ _ _ c.room_pos hs
    rw [hr] at hlt
    have hlt : pauses s1 < pauses s := hlt rfl
    have hless : c.toFetch pauses s1 w < c.toFetch pauses s w := by
      simp only [toFetch]
      omega
    exact ⟨Nat.le_of_lt hless, .inl hless⟩
  | case4 => trivial
  | case5 c s p hc hcan s1 hr =>
    have hhands : Hands holds e w (Source.read c.room s) := h _ _ _ c.room_pos hs
    rw [hr] at hhands
    obtain ⟨rfl, hend⟩ := hhands
    rw [finish_eq]
    refine ⟨hend, rfl, rfl, ?_⟩
    show p.held = _
    rw [rest, hc, Phase.rest, List.append_nil, List.append_nil]
  | case6 c s p hc hcan b bs s1 hr ih =>
    have hhands : Hands holds e w (Source.read c.room s) := h _ _ _ c.room_pos hs
    rw [hr] at hhands
    obtain ⟨w1, rfl, hs1⟩ := hhands
    refine (ih (by simp) hopen hl hs1).congr ?_ rfl fun pauses hp => ?_
    · simp only [rest, hc, Phase.rest, List.nil_append]
    · have hle := (hp _ _ _ c.room_pos hs).1
      rw [hr] at hle
      have hle : pauses s1 ≤ pauses s := hle
      simp only [toFetch, rest, hc, Phase.rest, List.length_append, List.length_nil]
      omega
  | case7 c s p n bs hc hcan => exact absurd (hlive.trans hcan) (by simp)
  | case8 c s p n bs hc hcan left p1 hw =>
    obtain ⟨front, back, hsum, hheld, hleaves⟩ := Pipe.keeps_held.leaves_writeAll bs p
    have hclosed := Pipe.closed_writeAll bs p
    have hlimit := Pipe.limit_writeAll bs p
    rw [hw] at hheld hleaves hclosed hlimit
    obtain ⟨rfl, -⟩ := hleaves
    have hheld : p1.held = p.held ++ front := hheld
    refine ⟨hclosed.trans hopen, hlimit, w, hs, ?_, fun pauses hp => ⟨?_, .inr ?_⟩⟩
    · simp only [rest, hc, Phase.rest, hheld, ← hsum, List.append_assoc]
    · simp only [toFetch, rest, hc, Phase.rest, ← hsum, List.length_append]
      omega
    · exact Pipe.held_of_writeAll_waiting hl hw
  | case9 => trivial
  | case10 c s p n bs hc hcan p1 hw ih =>
    have hwrote := Pipe.keeps_held.writeAll bs p
    have hclosed := Pipe.closed_writeAll bs p
    have hlimit := Pipe.limit_writeAll bs p
    rw [hw] at hwrote hclosed hlimit
    have hwrote : p1.held = p.held ++ bs := hwrote
    refine (ih (by simp) (hclosed.trans hopen) (hlimit ▸ hl) hs).congr ?_ hlimit
      fun pauses hp => ?_
    · simp only [rest, hc, Phase.rest, List.nil_append]
      rw [hwrote, List.append_assoc]
    · simp only [toFetch, rest, hc, Phase.rest, List.length_nil]
      omega
  | case11 c s p n hc hcan => exact absurd (hlive.trans hcan) (by simp)
  | case12 c s p n hc hcan p1 hf => cases hf
  | case13 => trivial
  | case14 c s p n hc hcan p1 hf ih =>
    cases hf
    refine (ih (by simp) hopen hl hs).congr ?_ rfl fun pauses hp => ?_
    · simp only [rest, hc, Phase.rest]
    · simp only [toFetch, rest, hc, Phase.rest, Nat.le_refl]

end Copy

end PacketWire
