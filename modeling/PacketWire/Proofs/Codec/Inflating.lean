import PacketWire.Proofs.Compression.Zlib
import PacketWire.Proofs.Codec.Grammar

/-!
# Bodies that are inflated

The size that a body declares is the size of the buffer its stream is inflated into. So what
filling a buffer tells of a stream is also what the frame is refused with.
-/

namespace PacketWire

open Compression

namespace Codec

variable {c : Codec} {stream : Bytes} {size : Nat}

theorem decodeBody_of_packed {body : Bytes} {start : Nat}
    (hl : c.layout body = .ok (.packed start size)) (r : Reserves) :
    (c.decodeBody body r).1 = (c.inflate (body.drop start) size r).1 := by
  simp only [decodeBody, hl, counted_fst]

theorem decodePooled_of_packed {frame : Buffer} {start : Nat}
    (hl : c.layout frame.bytes = .ok (.packed start size)) (r : Reserves) :
    (c.decodePooled frame r).1 = (c.inflate (frame.bytes.drop start) size r).1 := by
  simp only [decodePooled, hl, counted_fst]

theorem inflate_of_misfit (c : Codec) (stream : Bytes) (size : Nat) (r : Reserves)
    (h : ∀ text, c.compressor.inflate stream size = .done text → text.length ≠ size) :
    (∃ e, (r.acquire size).1 = .error e ∧ (c.inflate stream size r).1 = .error e) ∨
      (c.inflate stream size r).1 = .error (.decompression
        (if (c.compressor.inflate stream size).status = .corrupt then .status
          else .sizeMismatch)) := by
  match ha : r.acquire size with
  | (.error e, r') => exact .inl ⟨e, rfl, by simp only [inflate, ha]⟩
  | (.ok out, r') =>
    have hsaid : (c.inflate stream size r).1.map Packet.trimmed = _ := inflate_of_acquire ha
    rw [inflated_of_misfit h] at hsaid
    cases hd : (c.inflate stream size r).1 with
    | ok p =>
      rw [hd] at hsaid
      cases hsaid
    | error e =>
      rw [hd] at hsaid
      exact .inr hsaid

end Codec

namespace Compression.Inflater

variable {σ : Type} {I : Inflater σ} {bs : Bytes} {a : Account}

theorem Follows.inflate_done_iff (h : Follows I bs a) (n m : Nat) :
    (I.inflate bs n).status = .done ∧ (I.inflate bs n).written.length = m ↔
      a.verdict = .ended ∧ a.text.length = m ∧ m ≤ n := by
  constructor
  · rintro ⟨hdone, rfl⟩
    obtain ⟨hended, htext⟩ := h.of_inflate_done hdone
    exact ⟨hended, by rw [htext], I.length_inflate_le bs n⟩
  · rintro ⟨hended, rfl, hfits⟩
    rw [h.inflate_of_fits hended hfits]
    exact ⟨rfl, rfl⟩

theorem Follows.status_of_ended (h : Follows I bs a) (hended : a.verdict = .ended) (n : Nat) :
    (I.inflate bs n).status ≠ .corrupt := by
  by_cases hfits : a.text.length ≤ n
  · rw [h.inflate_of_fits hended hfits]
    exact nofun
  · rw [h.inflate_of_long hended (Nat.lt_of_not_le hfits)]
    exact nofun

/-- What a codec makes of a declared size that is not the length of a whole stream. -/
theorem Follows.refusal {c : Codec} (h : Follows I bs a) (hc : c.compressor.inflate = I.inflate)
    {n : Nat} (hmisfit : a.verdict = .ended → a.text.length ≠ n) (r : Reserves) :
    (∃ e, (r.acquire n).1 = .error e ∧ (c.inflate bs n r).1 = .error e) ∨
      (c.inflate bs n r).1 = .error (.decompression
        (if (I.inflate bs n).status = .corrupt then .status else .sizeMismatch)) := by
  have hsaid := c.inflate_of_misfit bs n r
  rw [hc] at hsaid
  refine hsaid fun text hdone => ?_
  obtain ⟨hended, htext⟩ := h.of_inflate_done (congrArg Inflation.status hdone)
  rw [hdone] at htext
  rw [show text = a.text from htext]
  exact hmisfit hended

/-- How filling a buffer ends, by the account of its input: with `done` for the whole streams that
fit, `outputFull` for longer ones, and `corrupt` for a fault or a cut, full buffer or not. -/
theorem inflate_tells (h : Follows I bs a) (n : Nat) :
    let x := I.inflate bs n
    (∀ m, x.status = .done ∧ x.written.length = m ↔
      a.verdict = .ended ∧ a.text.length = m ∧ m ≤ n) ∧
    (x.status = .done → x.written = a.text) ∧
    (a.verdict = .ended → n < a.text.length →
      x = .outputFull (a.text.take n) ∧ x.written.length = n) ∧
    (a.verdict ≠ .ended → x.status ≠ .done ∧ (a.text.length ≤ n → x.status = .corrupt)) ∧
    x.written.length ≤ n ∧
    (∃ k ≤ bs.length + n + 1,
      I.rounds bs n k { state := I.start } = .last (I.inflatesPast bs n { state := I.start })) ∧
    ∀ (c : Codec) (frame : Buffer) (start : Nat) (r : Reserves),
      c.compressor.inflate = I.inflate → c.layout frame.bytes = .ok (.packed start n) →
      frame.bytes.drop start = bs →
      ∀ said ∈ [(c.decodeBody frame.bytes r).1, (c.decodePooled frame r).1],
        (∃ e, (r.acquire n).1 = .error e ∧ said = .error e) ∨
          ((a.verdict = .ended → a.text.length ≠ n →
              said = .error (.decompression .sizeMismatch)) ∧
            (a.verdict ≠ .ended → ∃ why, said = .error (.decompression why)) ∧
            (a.verdict ≠ .ended → a.text.length ≤ n →
              said = .error (.decompression .status))) := by
  intro x
  refine ⟨h.inflate_done_iff n, fun hdone => (h.of_inflate_done hdone).2, fun hended hlong => ?_,
    fun hunended => ⟨fun hdone => hunended (h.of_inflate_done hdone).1,
      h.status_of_unended hunended⟩, I.length_inflate_le bs n,
    ⟨bs.length + n + 1, Nat.le_refl _, rounds_of_left_lt (by simp)⟩, ?_⟩
  · have hfull : x = _ := h.inflate_of_long hended hlong
    exact ⟨hfull, by rw [hfull]; exact List.length_take_of_le (Nat.le_of_lt hlong)⟩
  · rintro c frame start r hc hl rfl said hsaid
    obtain rfl : said = (c.inflate (frame.bytes.drop start) n r).1 := by
      simp only [List.mem_cons, List.not_mem_nil, or_false] at hsaid
      obtain rfl | rfl := hsaid
      · exact Codec.decodeBody_of_packed hl r
      · exact Codec.decodePooled_of_packed hl r
    by_cases hfull : a.verdict = .ended ∧ a.text.length = n
    · exact .inr ⟨fun _ hne => absurd hfull.2 hne, fun hunended => absurd hfull.1 hunended,
        fun hunended => absurd hfull.1 hunended⟩
    · obtain hexhausted | hsaid := h.refusal hc (fun hended hn => hfull ⟨hended, hn⟩) r
      · exact .inl hexhausted
      · rw [hsaid]
        refine .inr ⟨fun hended _ => ?_, fun _ => ⟨_, rfl⟩, fun hunended hfits => ?_⟩
        · rw [if_neg (h.status_of_ended hended n)]
        · rw [if_pos (h.status_of_unended hunended hfits)]

/-- A stream of two bytes in a buffer of one, and the same without its last byte. -/
theorem inflate_tells_two :
    let stream : Bytes := [120, 1, 1, 2, 0, 253, 255, 5, 9, 0, 21, 0, 15]
    let cut := stream.dropLast
    let c : Codec := { threshold := 1, compressor := Kind.zlib.compressor 0 }
    (Zlib.account stream).verdict = .ended ∧ (Zlib.account stream).text = [5, 9] ∧
      (Zlib.account cut).verdict = .goesOn ∧ (Zlib.account cut).text = [5, 9] ∧
      Zlib.inflate stream 1 = .outputFull [5] ∧
      (c.decodeBody (1 :: stream) {}).1 = .error (.decompression .sizeMismatch) ∧
      (Zlib.inflate cut 2).status = .corrupt ∧
      (c.decodePooled { bytes := 2 :: cut } { pool := { outstanding := 1 } }).1 =
        .error (.decompression .status) := by
  intro stream cut c
  have hended : (Zlib.account stream).verdict = .ended := by decide +kernel
  have htext : (Zlib.account stream).text = [5, 9] := by decide +kernel
  have hcut : (Zlib.account cut).verdict = .goesOn := by decide +kernel
  have hmade : (Zlib.account cut).text = [5, 9] := by decide +kernel
  have hunended : (Zlib.account cut).verdict ≠ .ended := by rw [hcut]; decide
  obtain ⟨-, -, hlong, -, -, -, hshort⟩ := inflate_tells (Zlib.inflater_follows stream) 1
  obtain ⟨-, -, -, hcorrupt, -, -, hrefused⟩ := inflate_tells (Zlib.inflater_follows cut) 2
  have hfull := (hlong hended (by rw [htext]; decide)).1
  rw [htext] at hfull
  refine ⟨hended, htext, hcut, hmade, hfull, ?_, (hcorrupt hunended).2 (by rw [hmade]; decide), ?_⟩
  · obtain ⟨e, he, -⟩ | ⟨hsaid, -⟩ := hshort c { bytes := 1 :: stream } 1 {} rfl rfl
      rfl _ List.mem_cons_self
    · cases he
    · exact hsaid hended (by rw [htext]; decide)
  · obtain ⟨e, he, -⟩ | ⟨-, -, hsaid⟩ := hrefused c { bytes := 2 :: cut } 1
      { pool := { outstanding := 1 } } rfl rfl rfl _
      (List.mem_cons_of_mem _ List.mem_cons_self)
    · cases he
    · exact hsaid hunended (by rw [hmade]; decide)

end Compression.Inflater

end PacketWire
