import Mathlib.Algebra.GroupWithZero.Nat
import PacketWire.Proofs.Compression.Inflater
import PacketWire.Compression.Zlib

/-!
# The inflater of zlib streams

`Zlib.account` reads an input without a buffer in mind. The inflater keeps to it: filling a buffer
from tokens gives the front of their text, and window by window the same text goes out. The
invariant of calls one after another is `Filling.Holds`.
-/

namespace PacketWire.Compression

namespace Lz77

/-! ## The text of tokens -/

def Token.write (out : Array UInt8) : Token → Array UInt8
  | .literal b => out.push b
  | .copy n distance => copyBack distance n out

def expand (ts : List Token) : Array UInt8 := ts.foldl Token.write #[]

theorem copyBack_add (distance m n : Nat) (out : Array UInt8) :
    copyBack distance (m + n) out = copyBack distance n (copyBack distance m out) := by
  induction m generalizing out with
  | zero => rw [Nat.zero_add, copyBack]
  | succ m ih => rw [Nat.add_right_comm, copyBack, copyBack, ih]

theorem prefix_copyBack (distance n : Nat) (out : Array UInt8) :
    out.toList <+: (copyBack distance n out).toList := by
  induction n generalizing out with
  | zero => exact List.prefix_rfl
  | succ n ih =>
    rw [copyBack]
    exact List.IsPrefix.trans (Array.toList_push ▸ List.prefix_append _ _) (ih _)

theorem prefix_write (out : Array UInt8) (t : Token) : out.toList <+: (t.write out).toList := by
  cases t with
  | literal b => exact Array.toList_push ▸ List.prefix_append _ _
  | copy n distance => exact prefix_copyBack distance n out

theorem prefix_foldl_write (ts : List Token) (out : Array UInt8) :
    out.toList <+: (ts.foldl Token.write out).toList := by
  induction ts generalizing out with
  | nil => exact List.prefix_rfl
  | cons t ts ih => exact (prefix_write out t).trans (ih _)

theorem size_foldl_write (ts : List Token) (out : Array UInt8) :
    (ts.foldl Token.write out).size = out.size + (ts.map Token.length).sum := by
  induction ts generalizing out with
  | nil => rfl
  | cons t ts ih =>
    rw [List.foldl_cons, ih, List.map_cons, List.sum_cons, ← Nat.add_assoc]
    cases t with
    | literal b => rw [Token.write, Array.size_push, Token.length]
    | copy n distance => rw [Token.write, size_copyBack, Token.length]

theorem prefix_fillTo (limit : Nat) (ts : List Token) (out : Array UInt8) :
    out.toList <+: (fillTo limit ts out).2.toList := by
  fun_induction fillTo limit ts out with
  | case1 => exact List.prefix_rfl
  | case2 => exact List.prefix_rfl
  | case3 ts out hroom b ih => exact (prefix_write out (.literal b)).trans ih
  | case4 ts out hroom n distance hfits ih => exact (prefix_copyBack distance n out).trans ih
  | case5 ts out hroom n distance hlong => exact prefix_copyBack distance _ out

theorem foldl_fillTo (limit : Nat) (ts : List Token) (out : Array UInt8) :
    (fillTo limit ts out).1.foldl Token.write (fillTo limit ts out).2 =
      ts.foldl Token.write out := by
  fun_induction fillTo limit ts out with
  | case1 => rfl
  | case2 => rfl
  | case3 ts out hroom b ih => exact ih
  | case4 ts out hroom n distance hfits ih => exact ih
  | case5 ts out hroom n distance hlong =>
    rw [List.foldl_cons, List.foldl_cons, Token.write, Token.write, ← copyBack_add]
    congr 2
    omega

theorem le_size_fillTo {limit : Nat} {ts : List Token} {out : Array UInt8}
    (h : (fillTo limit ts out).1 ≠ []) : limit ≤ (fillTo limit ts out).2.size := by
  fun_induction fillTo limit ts out with
  | case1 => exact absurd rfl h
  | case2 ts out t hfull => exact hfull
  | case3 ts out hroom b ih => exact ih h
  | case4 ts out hroom n distance hfits ih => exact ih h
  | case5 ts out hroom n distance hlong =>
    rw [size_copyBack]
    omega

theorem fillTo_eq_take (limit : Nat) (ts : List Token) :
    (fillTo limit ts #[]).2.toList = (expand ts).toList.take limit := by
  have hwhole := foldl_fillTo limit ts #[]
  have hle : (fillTo limit ts #[]).2.size ≤ limit := size_fillTo_le ts (Nat.zero_le _)
  by_cases hrest : (fillTo limit ts #[]).1 = []
  · rw [hrest, List.foldl_nil] at hwhole
    rw [expand, ← hwhole, List.take_of_length_le hle]
  · have hfront := prefix_foldl_write (fillTo limit ts #[]).1 (fillTo limit ts #[]).2
    have hsize : (fillTo limit ts #[]).2.toList.length = limit :=
      Nat.le_antisymm hle (le_size_fillTo hrest)
    rw [hwhole, List.prefix_iff_eq_take, hsize] at hfront
    exact hfront

end Lz77

namespace Zlib

open Lz77

/-! ## One call for a stream -/

theorem grounded_spec (ts : List Token) (n : Nat) (acc : List Token) :
    ∃ front rest, ts = front ++ rest ∧
      (grounded ts n acc).1 = (front.reverse ++ acc, n + (front.map Token.length).sum) ∧
      ((grounded ts n acc).2 = true → rest = []) := by
  fun_induction grounded ts n acc with
  | case1 n acc => exact ⟨[], [], rfl, rfl, fun _ => rfl⟩
  | case2 t ts n acc hback ih =>
    obtain ⟨front, rest, rfl, heq, hrest⟩ := ih
    refine ⟨t :: front, rest, rfl, ?_, hrest⟩
    rw [heq, List.reverse_cons, List.append_assoc, List.map_cons, List.sum_cons, Nat.add_assoc]
    rfl
  | case3 t ts n acc hback =>
    exact ⟨[], _, rfl, rfl, fun h => absurd h Bool.false_ne_true⟩

/-- The stream at the start of an input. -/
def account (bs : Bytes) : Account :=
  let s := read bs
  let ((tokens, _), sound) := grounded s.tokens 0 []
  let text := (expand tokens.reverse).toList
  { text, verdict := if sound then verdict s.ending text else .failed }

theorem call_finish (bs : Bytes) (room : Nat) :
    inflater.call .finish bs room inflater.start =
      { verdict := if room < (account bs).text.length then .goesOn else (account bs).verdict,
        taken := bs.length, output := (account bs).text.take room, state := .spent } := by
  obtain ⟨front, rest, -, heq, -⟩ := grounded_spec (read bs).tokens 0 []
  have hlength : (expand (front.reverse ++ []).reverse).toList.length =
      0 + (front.map Token.length).sum := by
    rw [List.append_nil, List.reverse_reverse, Array.length_toList, expand, size_foldl_write]
    rfl
  change inflateAtOnce bs room = _
  simp only [inflateAtOnce, account, heq, fillTo_eq_take, hlength]
  split
  · rfl
  · rename_i hfits
    rw [List.take_of_length_le (by omega)]

/-- In a stream without faults every copy is grounded. -/
theorem account_of_sound {bs : Bytes} (h : (account bs).verdict ≠ .failed) :
    account bs = { text := (expand (read bs).tokens).toList,
                   verdict := verdict (read bs).ending (expand (read bs).tokens).toList } := by
  obtain ⟨front, rest, hsplit, heq, hrest⟩ := grounded_spec (read bs).tokens 0 []
  cases hsound : (grounded (read bs).tokens 0 []).2 with
  | false => simp [account, hsound] at h
  | true =>
    rw [hrest hsound, List.append_nil] at hsplit
    simp only [account, hsound, heq, List.append_nil, List.reverse_reverse, if_true, ← hsplit]

/-! ## Call after call -/

/-- A stream that gave `made` so far has the rest of its text before it. -/
structure Filling.Holds (f : Filling) (s : Stream) (made : Bytes) : Prop where
  whole : f.tokens.foldl Token.write f.out = expand s.tokens
  ending : f.ending = s.ending
  given_le : f.given ≤ f.out.size
  made_eq : made = f.out.toList.take f.given

namespace Filling.Holds

variable {f : Filling} {s : Stream} {made : Bytes}

theorem front (h : f.Holds s made) : made <+: (expand s.tokens).toList := by
  rw [h.made_eq, ← h.whole]
  exact (List.take_prefix _ _).trans (prefix_foldl_write _ _)

theorem fillWindow (h : f.Holds s made) : f.fillWindow.Holds s made := by
  have hfront : f.out.toList <+: f.fillWindow.out.toList := prefix_fillTo _ _ _
  refine ⟨(foldl_fillTo _ _ _).trans h.whole, h.ending,
    Nat.le_trans h.given_le hfront.length_le, ?_⟩
  obtain ⟨more, hmore⟩ := hfront
  rw [h.made_eq, ← hmore]
  exact (List.take_append_of_le_length h.given_le).symm

theorem given_le_upTo (h : f.Holds s made) (room : Nat) : f.given ≤ f.upTo room :=
  Nat.le_min.mpr ⟨Nat.le_add_right _ _, h.given_le⟩

theorem advance (h : f.Holds s made) {n : Nat} (hn : f.given ≤ n) (hsize : n ≤ f.out.size) :
    Filling.Holds { f with given := n } s (made ++ (f.out.extract f.given n).toList) := by
  refine ⟨h.whole, h.ending, hsize, ?_⟩
  rw [h.made_eq, Array.toList_extract, List.extract_eq_take_drop, ← List.take_add,
    Nat.add_sub_cancel' hn]

/-- Before the last token all is well; behind it the stream stands as it does as a whole. -/
theorem verdictAt (h : f.Holds s made) (n : Nat) :
    (f.tokens ≠ [] ∧ f.verdictAt n = .goesOn) ∨
      (f.out = expand s.tokens ∧ f.verdictAt n =
        if verdict s.ending (expand s.tokens).toList = .ended ∧ n < f.out.size then .goesOn
        else verdict s.ending (expand s.tokens).toList) := by
  obtain ⟨tokens, out, given, ending⟩ := f
  cases tokens with
  | nil =>
    obtain rfl : out = expand s.tokens := h.whole
    obtain rfl : ending = s.ending := h.ending
    exact .inr ⟨rfl, rfl⟩
  | cons t ts => exact .inl ⟨List.cons_ne_nil _ _, rfl⟩

theorem hand (h : f.Holds s made) (room : Nat) :
    (f.hand room = refusal ∧ verdict s.ending (expand s.tokens).toList = .failed) ∨
      ∃ g : Filling, g.Holds s made ∧ (g.tokens ≠ [] → g.given < g.out.size) ∧
        f.hand room = { verdict := g.verdictAt (g.upTo room), taken := 0,
                        output := (g.out.extract g.given (g.upTo room)).toList,
                        state := .filling { g with given := g.upTo room } } := by
  have hwindow := h.fillWindow
  have hroom : f.fillWindow.tokens ≠ [] → f.given < f.fillWindow.out.size := fun hrest => by
    have hle : windowEnd f.given ≤ f.fillWindow.out.size := le_size_fillTo hrest
    have hlt := Nat.lt_mul_div_succ f.given (show 0 < windowSize by decide)
    exact Nat.lt_of_lt_of_le hlt hle
  by_cases hfailed : f.fillWindow.verdictAt (f.fillWindow.upTo room) = .failed
  · refine .inl ⟨if_pos hfailed, ?_⟩
    obtain ⟨-, hgoesOn⟩ | ⟨-, heq⟩ := hwindow.verdictAt (f.fillWindow.upTo room)
    · cases hgoesOn.symm.trans hfailed
    · rw [hfailed] at heq
      split at heq
      · cases heq
      · exact heq.symm
  · exact .inr ⟨f.fillWindow, hwindow, hroom, if_neg hfailed⟩

end Filling.Holds

/-- Every state that calls reach stands somewhere in the stream. -/
theorem exists_holds {bs : Bytes} {p : Pass State} {made : Bytes}
    (h : Inflater.Reached inflater bs p made) :
    ∃ f : Filling, f.Holds (read bs) made ∧
      ∀ room, ∃ taken, inflater.resume bs room p = { f.hand room with taken } := by
  induction h with
  | start =>
    refine ⟨{ tokens := (read bs).tokens, ending := (read bs).ending },
      ⟨rfl, rfl, Nat.zero_le _, rfl⟩, fun room => ⟨bs.length, rfl⟩⟩
  | @resume p made room _ hverdict ih =>
    obtain ⟨f, hf, hresume⟩ := ih
    obtain ⟨taken, heq⟩ := hresume room
    rw [heq] at hverdict ⊢
    obtain ⟨hrefused, -⟩ | ⟨g, hg, -, hhand⟩ := hf.hand room
    · rw [hrefused] at hverdict
      cases hverdict
    · rw [hhand]
      exact ⟨_, hg.advance (hg.given_le_upTo room) (Nat.min_le_right _ _), fun room => ⟨_, rfl⟩⟩

section Parts

variable {bs : Bytes} {p : Pass State} {made : Bytes}
  (h : Inflater.Reached inflater bs p made) (room : Nat)

include h

theorem resume_in_order (hsound : (account bs).verdict ≠ .failed) :
    made ++ (inflater.resume bs room p).output <+: (account bs).text := by
  obtain ⟨f, hf, hresume⟩ := exists_holds h
  obtain ⟨taken, heq⟩ := hresume room
  rw [heq, account_of_sound hsound]
  obtain ⟨hrefused, -⟩ | ⟨g, hg, -, hhand⟩ := hf.hand room
  · rw [hrefused]
    exact (List.append_nil made).symm ▸ hf.front
  · rw [hhand]
    exact (hg.advance (hg.given_le_upTo room) (Nat.min_le_right _ _)).front

/-- In a whole stream a call never fails, ends with all of the text, and else gives some of it. -/
theorem resume_of_ended (hended : (account bs).verdict = .ended) :
    let reply := inflater.resume bs room p
    (reply.verdict = .goesOn ∧ (0 < room → 0 < reply.output.length)) ∨
      (reply.verdict = .ended ∧ made ++ reply.output = (account bs).text) := by
  have haccount : account bs = _ := account_of_sound (by rw [hended]; decide)
  have hall : verdict (read bs).ending (expand (read bs).tokens).toList = .ended :=
    (congrArg Account.verdict haccount).symm.trans hended
  obtain ⟨f, hf, hresume⟩ := exists_holds h
  obtain ⟨taken, heq⟩ := hresume room
  rw [heq, haccount]
  obtain ⟨-, hfailed⟩ | ⟨g, hg, hmore, hhand⟩ := hf.hand room
  · cases hall.symm.trans hfailed
  rw [hhand]
  have hsome (hlt : g.given < g.out.size) (hpos : 0 < room) :
      0 < (g.out.extract g.given (g.upTo room)).toList.length := by
    rw [Array.length_toList, Array.size_extract, Filling.upTo]
    omega
  obtain ⟨hrest, hverdict⟩ | ⟨hwhole, hverdict⟩ := hg.verdictAt (g.upTo room)
  · exact .inl ⟨hverdict, hsome (hmore hrest)⟩
  · rw [hall] at hverdict
    by_cases hlt : g.upTo room < g.out.size
    · exact .inl ⟨hverdict.trans (if_pos ⟨rfl, hlt⟩),
        hsome (Nat.lt_of_le_of_lt (hg.given_le_upTo room) hlt)⟩
    · refine .inr ⟨hverdict.trans (if_neg fun hboth => hlt hboth.2), ?_⟩
      have hlast : g.upTo room = g.out.size :=
        Nat.le_antisymm (Nat.min_le_right _ _) (Nat.le_of_not_lt hlt)
      rw [hlast, (hg.advance hg.given_le (Nat.le_refl _)).made_eq, hwhole]
      exact List.take_of_length_le (Nat.le_refl _)

end Parts

theorem inflater_follows (bs : Bytes) : Inflater.Follows inflater bs (account bs) where
  settles _ hfits := by
    rw [call_finish]
    exact if_neg (Nat.not_lt_of_le hfits)
  verified hended := by
    rw [call_finish] at hended
    dsimp only at hended
    split at hended
    · cases hended
    · exact hended
  in_order hcalled hsound := by
    cases hcalled with
    | whole room =>
      rw [call_finish]
      exact List.take_prefix _ _
    | part room hreached => exact resume_in_order hreached room hsound
  complete hcalled hended hverdict := by
    cases hcalled with
    | whole room =>
      rw [call_finish] at hverdict ⊢
      dsimp only at hverdict ⊢
      split at hverdict
      · cases hverdict
      · exact List.take_of_length_le (by omega)
    | part room hreached =>
      obtain ⟨hgoesOn, -⟩ | ⟨-, hall⟩ := resume_of_ended hreached room hended
      · cases hgoesOn.symm.trans hverdict
      · exact hall
  faultless hcalled hended hfailed := by
    cases hcalled with
    | whole room =>
      rw [call_finish, hended] at hfailed
      dsimp only at hfailed
      split at hfailed <;> cases hfailed
    | part room hreached =>
      obtain ⟨hverdict, -⟩ | ⟨hverdict, -⟩ := resume_of_ended hreached room hended <;>
        cases hverdict.symm.trans hfailed
  fills hended hverdict := by
    rw [call_finish, hended] at hverdict
    rw [call_finish]
    dsimp only at hverdict ⊢
    split at hverdict
    · exact List.length_take_of_le (by omega)
    · cases hverdict
  moves {p made room} hreached hended hpos hverdict := by
    obtain ⟨-, hmoves⟩ | ⟨hlast, -⟩ := resume_of_ended hreached room hended
    · exact Nat.add_pos_left (hmoves hpos) _
    · cases hlast.symm.trans hverdict

end Zlib

end PacketWire.Compression
