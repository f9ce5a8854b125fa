import Mathlib.Data.List.Induction
import PacketWire.Registry

/-!
# Which decoder answers

`Registry.after` is what a history of registrations leaves behind, and `Accepted` says which of them
it took. Whatever the history, no two accepted ranges of an id share a version (`Unambiguous`). So a
packet has at most one decoder, and it does not matter in which order the ranges came.
-/

namespace PacketWire

namespace Versions

/-- Whether two ranges have a version in common. -/
def Meets (v w : Versions) : Prop := ∃ n, v.contains n = true ∧ w.contains n = true

variable {v w : Versions}

theorem contains_iff {n : Int32} : v.contains n = true ↔ v.first ≤ n ∧ n ≤ v.last := by
  simp [contains]

theorem isEmpty_eq_false_iff : v.isEmpty = false ↔ v.first ≤ v.last := by
  simp [isEmpty, Int32.not_lt]

theorem isEmpty_eq_false_iff_exists : v.isEmpty = false ↔ ∃ n, v.contains n = true := by
  rw [isEmpty_eq_false_iff]
  constructor
  · intro h
    exact ⟨v.first, contains_iff.mpr ⟨Int32.le_refl _, h⟩⟩
  · rintro ⟨n, hn⟩
    obtain ⟨hfirst, hlast⟩ := contains_iff.mp hn
    exact Int32.le_trans hfirst hlast

theorem Meets.symm (h : v.Meets w) : w.Meets v := by
  obtain ⟨n, hv, hw⟩ := h
  exact ⟨n, hw, hv⟩

/-- Of two ranges with versions, each begins before the other one ends exactly if they share one. -/
theorem overlaps_iff_meets (hv : v.isEmpty = false) (hw : w.isEmpty = false) :
    v.overlaps w = true ↔ v.Meets w := by
  rw [isEmpty_eq_false_iff] at hv hw
  simp only [overlaps, Bool.and_eq_true, decide_eq_true_eq]
  constructor
  · rintro ⟨hvw, hwv⟩
    rcases Int32.le_total v.first w.first with hle | hle
    · exact ⟨w.first, contains_iff.mpr ⟨hle, hwv⟩, contains_iff.mpr ⟨Int32.le_refl _, hw⟩⟩
    · exact ⟨v.first, contains_iff.mpr ⟨Int32.le_refl _, hv⟩, contains_iff.mpr ⟨hle, hvw⟩⟩
  · rintro ⟨n, hnv, hnw⟩
    rw [contains_iff] at hnv hnw
    exact ⟨Int32.le_trans hnv.1 hnw.2, Int32.le_trans hnw.1 hnv.2⟩

end Versions

/-! ## Registrations -/

namespace Registration

variable {M : Type}

/-- Whether a registration answers for an id at a version. -/
def Covers (e : Registration M) (id version : Int32) : Prop :=
  e.id = id ∧ e.versions.contains version = true

/-- Whether two registrations never answer for the same packet. -/
def Apart (e e' : Registration M) : Prop := e.id = e'.id → ¬ e.versions.Meets e'.versions

variable {e e' : Registration M} {id version : Int32}

theorem Apart.symm (h : e.Apart e') : e'.Apart e := fun hid hmeets => h hid.symm hmeets.symm

theorem Apart.not_covers (h : e.Apart e') (he : e.Covers id version) : ¬ e'.Covers id version := by
  intro he'
  exact h (he.1.trans he'.1.symm) ⟨version, he.2, he'.2⟩

end Registration

namespace Registry

variable {M : Type}

/-- Every range that was accepted holds a version, and no two of an id share one. -/
structure Unambiguous (g : Registry M) : Prop where
  nonempty : ∀ e ∈ g.entries, e.versions.isEmpty = false
  apart : g.entries.Pairwise Registration.Apart

variable {g g' : Registry M} {r : Registration M}

theorem clash?_eq_none_iff (h : g.Unambiguous) (hr : r.versions.isEmpty = false) :
    g.clash? r = none ↔ ∀ e ∈ g.entries, e.Apart r := by
  simp only [clash?, List.find?_eq_none, Bool.and_eq_true, beq_iff_eq]
  refine forall₂_congr fun e he => ?_
  rw [Versions.overlaps_iff_meets (h.nonempty e he) hr, not_and]
  exact Iff.rfl

theorem register_eq_ok_iff (h : g.Unambiguous) :
    g.register r = .ok g' ↔
      r.versions.isEmpty = false ∧ (∀ e ∈ g.entries, e.Apart r) ∧
        g' = { entries := g.entries ++ [r] } := by
  unfold register
  cases hr : r.versions.isEmpty with
  | true => simp
  | false =>
    rw [← clash?_eq_none_iff h hr]
    cases g.clash? r with
    | some e => simp
    | none => simp [eq_comm]

theorem find?_eq_some_iff (h : g.Unambiguous) {e : Registration M} {id version : Int32} :
    g.find? id version = some e ↔ e ∈ g.entries ∧ e.Covers id version := by
  have hcovers (e : Registration M) :
      (e.id == id && e.versions.contains version) = true ↔ e.Covers id version := by
    simp [Registration.Covers]
  unfold find?
  constructor
  · intro hfind
    have hfound := List.find?_some hfind
    exact ⟨List.mem_of_find?_eq_some hfind, (hcovers e).mp hfound⟩
  · rintro ⟨hmem, he⟩
    obtain ⟨before, behind, hsplit⟩ := List.append_of_mem hmem
    have hapart := h.apart
    rw [hsplit, List.pairwise_append] at hapart
    rw [hsplit, List.find?_append, List.find?_eq_none.mpr, Option.none_or]
    · simp only [List.find?_cons, (hcovers e).mpr he]
    · intro e' he' hcovers'
      exact (hapart.2.2 e' he' e (.head _)).not_covers ((hcovers e').mp hcovers') he

theorem contains_iff (h : g.Unambiguous) {id version : Int32} :
    g.contains id version = true ↔ ∃ e ∈ g.entries, e.Covers id version := by
  simp only [contains, Option.isSome_iff_exists, find?_eq_some_iff h]

theorem decode_of_covers (h : g.Unambiguous) {e : Registration M} {p : Packet} {version : Int32}
    (hmem : e ∈ g.entries) (he : e.Covers p.id version) :
    g.decode p version = e.decode p.payload := by
  rw [decode, (find?_eq_some_iff h).mpr ⟨hmem, he⟩]

theorem decode_of_not_contains {p : Packet} {version : Int32}
    (h : g.contains p.id version = false) :
    g.decode p version = .error (.unknownPacket p.id version) := by
  rw [decode, Option.isSome_eq_false_iff.mp h |> Option.isNone_iff_eq_none.mp]

/-- Two registries with the same entries, in whatever order, give the same answers. -/
theorem find?_of_perm (h : g.Unambiguous) (h' : g'.Unambiguous)
    (hperm : g.entries.Perm g'.entries) : g.find? = g'.find? := by
  funext id version
  refine Option.ext fun e => ?_
  rw [find?_eq_some_iff h, find?_eq_some_iff h', hperm.mem_iff]

/-! ## Histories -/

def tried (g : Registry M) (r : Registration M) : Registry M := (g.register r).toOption.getD g

/-- The registry after a history of tries, through whichever of its handles. -/
def after (rs : List (Registration M)) : Registry M := rs.foldl tried {}

/-- Whether a registration is accepted behind a history. -/
def Accepts (before : List (Registration M)) (r : Registration M) : Prop :=
  ((after before).register r).isOk = true

/-- Whether a registration was accepted in a history. -/
def Accepted (rs : List (Registration M)) (e : Registration M) : Prop :=
  ∃ before, before ++ [e] <+: rs ∧ Accepts before e

variable {rs : List (Registration M)}

theorem after_concat (rs : List (Registration M)) (r : Registration M) :
    after (rs ++ [r]) = (after rs).tried r := by
  simp [after]

theorem tried_of_refused (h : ¬ (g.register r).isOk = true) : g.tried r = g := by
  unfold tried
  cases hr : g.register r with
  | error e => rfl
  | ok g' => exact absurd (by rw [hr]; rfl) h

theorem tried_of_accepted (hg : g.Unambiguous) (h : (g.register r).isOk = true) :
    g.tried r = { entries := g.entries ++ [r] } := by
  unfold tried
  cases hr : g.register r with
  | error e => simp [hr, Except.isOk, Except.toBool] at h
  | ok g' => exact ((register_eq_ok_iff hg).mp hr).2.2

theorem isOk_register_iff (h : g.Unambiguous) :
    (g.register r).isOk = true ↔ r.versions.isEmpty = false ∧ ∀ e ∈ g.entries, e.Apart r := by
  constructor
  · intro hok
    cases hr : g.register r with
    | error e => simp [hr, Except.isOk, Except.toBool] at hok
    | ok g' =>
      obtain ⟨hne, hapart, -⟩ := (register_eq_ok_iff h).mp hr
      exact ⟨hne, hapart⟩
  · rintro ⟨hne, hapart⟩
    rw [(register_eq_ok_iff h).mpr ⟨hne, hapart, rfl⟩]
    rfl

theorem Unambiguous.tried (h : g.Unambiguous) (r : Registration M) : (g.tried r).Unambiguous := by
  by_cases hok : (g.register r).isOk = true
  · obtain ⟨hne, hapart⟩ := (isOk_register_iff h).mp hok
    rw [tried_of_accepted h hok]
    refine ⟨fun e he => ?_, ?_⟩
    · rcases List.mem_append.mp he with he | he
      · exact h.nonempty e he
      · exact List.mem_singleton.mp he ▸ hne
    · refine List.pairwise_append.mpr ⟨h.apart, List.pairwise_singleton .., ?_⟩
      intro e he r' hr'
      exact List.mem_singleton.mp hr' ▸ hapart e he
  · rw [tried_of_refused hok]
    exact h

theorem unambiguous_after (rs : List (Registration M)) : (after rs).Unambiguous := by
  induction rs using List.reverseRecOn with
  | nil => exact ⟨nofun, .nil⟩
  | append_singleton rs r ih =>
    rw [after_concat]
    exact ih.tried r

theorem mem_after_iff {e : Registration M} : e ∈ (after rs).entries ↔ Accepted rs e := by
  induction rs using List.reverseRecOn with
  | nil => simp [after, Accepted]
  | append_singleton rs r ih =>
    have hlast : Accepted (rs ++ [r]) e ↔ Accepted rs e ∨ e = r ∧ Accepts rs r := by
      constructor
      · rintro ⟨before, hbefore, haccepts⟩
        rcases List.prefix_concat_iff.mp hbefore with heq | hbefore
        · obtain ⟨hrs, hlast⟩ := List.append_inj' heq rfl
          obtain rfl : e = r := by simpa using hlast
          subst hrs
          exact .inr ⟨rfl, haccepts⟩
        · exact .inl ⟨before, hbefore, haccepts⟩
      · rintro (⟨before, hbefore, haccepts⟩ | ⟨rfl, haccepts⟩)
        · exact ⟨before, hbefore.trans (List.prefix_append ..), haccepts⟩
        · exact ⟨rs, List.prefix_rfl, haccepts⟩
    rw [hlast, after_concat, ← ih]
    by_cases hok : ((after rs).register r).isOk = true
    · rw [tried_of_accepted (unambiguous_after rs) hok]
      simp [Accepts, hok]
    · rw [tried_of_refused hok]
      simp [Accepts, hok]

theorem accepts_iff :
    Accepts rs r ↔ (∃ n, r.versions.contains n = true) ∧ ∀ e, Accepted rs e → e.Apart r := by
  rw [Accepts, isOk_register_iff (unambiguous_after rs), Versions.isEmpty_eq_false_iff_exists]
  simp only [mem_after_iff]

/-- Ranges that share nothing are all accepted. -/
theorem entries_after_of_apart (hne : ∀ r ∈ rs, r.versions.isEmpty = false)
    (hapart : rs.Pairwise Registration.Apart) : (after rs).entries = rs := by
  induction rs using List.reverseRecOn with
  | nil => rfl
  | append_singleton rs r ih =>
    obtain ⟨hbefore, -, hlast⟩ := List.pairwise_append.mp hapart
    have hentries := ih (fun e he => hne e (List.mem_append_left _ he)) hbefore
    have hok : ((after rs).register r).isOk = true := by
      refine (isOk_register_iff (unambiguous_after rs)).mpr ⟨hne r (by simp), fun e he => ?_⟩
      exact hlast e (hentries ▸ he) r (.head _)
    rw [after_concat, tried_of_accepted (unambiguous_after rs) hok, hentries]

/-- A registration is accepted exactly if its range holds a version and shares none with an accepted
one of the same id; a refused one changes nothing. So a packet goes to the one accepted registration
that covers it, in whatever order disjoint ranges came. -/
theorem dispatch_unambiguous (rs : List (Registration M)) :
    let g := after rs
    (∀ r, Accepts rs r ↔
      (∃ n, r.versions.contains n = true) ∧ ∀ e, Accepted rs e → e.id = r.id →
        ¬ ∃ n, e.versions.contains n = true ∧ r.versions.contains n = true) ∧
    (∀ r, ¬ Accepts rs r → ∀ later, after (rs ++ r :: later) = after (rs ++ later)) ∧
    g.entries.Pairwise Registration.Apart ∧ (∀ e, e ∈ g.entries ↔ Accepted rs e) ∧
    (∀ id version, g.contains id version = true ↔ ∃ e, Accepted rs e ∧ e.Covers id version) ∧
    (∀ (p : Packet) version e, Accepted rs e → e.Covers p.id version →
      g.decode p version = e.decode p.payload ∧
        ∀ e', Accepted rs e' → e'.Covers p.id version → e' = e) ∧
    (∀ (p : Packet) version, g.contains p.id version = false →
      g.decode p version = .error (.unknownPacket p.id version)) ∧
    ((∀ e, Accepted rs e → ∀ bs id version, e.decode bs ≠ .error (.unknownPacket id version)) →
      ∀ (p : Packet) version, g.decode p version = .error (.unknownPacket p.id version) ↔
        g.contains p.id version = false) ∧
    (∀ rs', rs.Perm rs' → (∀ r ∈ rs, ∃ n, r.versions.contains n = true) →
      rs.Pairwise Registration.Apart →
      (∀ r ∈ rs, Accepted rs r ∧ Accepted rs' r) ∧
        g.contains = (after rs').contains ∧ g.decode = (after rs').decode) := by
  intro g
  have hg : g.Unambiguous := unambiguous_after rs
  refine ⟨fun r => accepts_iff, fun r hr later => ?_, hg.apart, fun e => mem_after_iff,
    fun id version => ?_, fun p version e haccepted he => ?_, fun p version => ?_,
    fun hknown p version => ?_, fun rs' hperm hne hapart => ?_⟩
  · have hsame : (after rs).tried r = after rs := tried_of_refused hr
    simp only [after, List.foldl_append, List.foldl_cons]
    rw [← after, hsame]
  · rw [contains_iff hg]
    simp only [g, mem_after_iff]
  · have hmem := mem_after_iff.mpr haccepted
    refine ⟨decode_of_covers hg hmem he, fun e' haccepted' he' => ?_⟩
    have hfind := (find?_eq_some_iff hg).mpr ⟨hmem, he⟩
    have hfind' := (find?_eq_some_iff hg).mpr ⟨mem_after_iff.mpr haccepted', he'⟩
    exact Option.some.inj (hfind'.symm.trans hfind)
  · exact decode_of_not_contains
  · refine ⟨fun hunknown => ?_, decode_of_not_contains⟩
    rw [← Bool.not_eq_true, contains_iff hg]
    rintro ⟨e, hmem, he⟩
    rw [decode_of_covers hg hmem he] at hunknown
    exact hknown e (mem_after_iff.mp hmem) _ _ _ hunknown
  · have hne (r : Registration M) (hr : r ∈ rs) : r.versions.isEmpty = false :=
      Versions.isEmpty_eq_false_iff_exists.mpr (hne r hr)
    have hentries : g.entries = rs := entries_after_of_apart hne hapart
    have hapart' : rs'.Pairwise Registration.Apart :=
      hperm.pairwise hapart fun h => h.symm
    have hentries' : (after rs').entries = rs' :=
      entries_after_of_apart (fun r hr => hne r (hperm.mem_iff.mpr hr)) hapart'
    have hfind : g.find? = (after rs').find? :=
      find?_of_perm hg (unambiguous_after rs') (by rw [hentries, hentries']; exact hperm)
    refine ⟨fun r hr => ⟨?_, ?_⟩, ?_, ?_⟩
    · exact mem_after_iff.mp (hentries.symm ▸ hr)
    · exact mem_after_iff.mp (hentries'.symm ▸ hperm.mem_iff.mp hr)
    · funext id version
      rw [contains, contains, hfind]
    · funext p version
      rw [decode, decode, hfind]

/-- A range that begins with the last version of another one is refused. -/
theorem dispatch_unambiguous_touching :
    let early : Registration Bytes := { id := 0x33, versions := ⟨759, 759⟩, decode := .ok }
    let late : Registration Bytes :=
      { id := 0x33, versions := ⟨760, 764⟩, decode := fun bs => .ok bs.reverse }
    let touching : Registration Bytes := { id := 0x33, versions := ⟨764, 766⟩, decode := .ok }
    let p : Packet := { id := 0x33, storage := .shared [0x33, 1, 2], start := 0, payloadStart := 1 }
    let g := after [early, late]
    ¬ Accepts [early, late] touching ∧ after [early, late, touching] = g ∧
      Accepted [early, late] late ∧ late.Covers p.id 764 ∧ g.decode p 764 = .ok [2, 1] ∧
      g.contains p.id 765 = false ∧ g.decode p 765 = .error (.unknownPacket 0x33 765) ∧
      g.decode = (after [late, early]).decode := by
  intro early late touching p g
  obtain ⟨-, hrefused, -, hheld, -, hcovered, -, hunknown, horder⟩ :=
    dispatch_unambiguous [early, late]
  have hrefuses : ¬ Accepts [early, late] touching := by unfold Accepts; decide
  have hapart : [early, late].Pairwise Registration.Apart := by
    have hearly : early.versions.isEmpty = false := by decide
    have hlate : late.versions.isEmpty = false := by decide
    refine List.pairwise_pair.mpr fun _ hmeets => ?_
    exact absurd ((Versions.overlaps_iff_meets hearly hlate).mpr hmeets) (by decide)
  have hentries : g.entries = [early, late] := entries_after_of_apart (by decide) hapart
  have hlate : Accepted [early, late] late := (hheld late).mp (by rw [hentries]; simp)
  have hcovers : late.Covers p.id 764 := ⟨rfl, rfl⟩
  have hnone : g.contains p.id 765 = false := by decide
  have hknown (e : Registration Bytes) (he : Accepted [early, late] e) (bs : Bytes)
      (id version : Int32) : e.decode bs ≠ .error (.unknownPacket id version) := by
    have hmem := (hheld e).mpr he
    rw [hentries] at hmem
    simp only [List.mem_cons, List.not_mem_nil, or_false] at hmem
    rcases hmem with rfl | rfl <;> simp [early, late]
  have hversions (r : Registration Bytes) (hr : r ∈ [early, late]) :
      ∃ n, r.versions.contains n = true := by
    simp only [List.mem_cons, List.not_mem_nil, or_false] at hr
    rcases hr with rfl | rfl
    · exact ⟨759, by decide⟩
    · exact ⟨760, by decide⟩
  exact ⟨hrefuses, hrefused touching hrefuses [], hlate, hcovers,
    (hcovered p 764 late hlate hcovers).1, hnone, (hunknown hknown p 765).mpr hnone,
    (horder [late, early] (.swap ..) hversions hapart).2.2⟩

end Registry

end PacketWire
