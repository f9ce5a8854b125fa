import Mathlib.Data.List.Basic
import PacketWire.Proofs.Toml.Words

/-!
# Building documents

A `Tidy` value is one that is written on a line of its own or as a table of such values with bare
and distinct keys, the plain ones first. The headers of its tables (`innerBlocks`), taken in the
order in which they are written, build it again (`build?_tidy`): a table is opened under a key that
is new, and what is in it is built behind the same key (`foldlM_addBlock_under`).
-/

namespace PacketWire.Toml

/-! ## Tidy values -/

def Value.isTable : Value → Bool
  | .table _ => true
  | _ => false

/-- Whether a value can be written, with at most `depth` tables inside each other. -/
inductive Tidy : Nat → Value → Prop where
  | string (depth : Nat) (text : String) : Tidy depth (.string text)
  | integer (depth : Nat) {n : Int} (fits : inRange n = some n) : Tidy depth (.integer n)
  | boolean (depth : Nat) (b : Bool) : Tidy depth (.boolean b)
  | table {depth : Nat} {es : List (String × Value)} (bare : ∀ e ∈ es, Bare e.1)
      (distinct : (es.map Prod.fst).Nodup)
      (order : es.Pairwise fun a b => a.2.isTable = true → b.2.isTable = true)
      (values : ∀ e ∈ es, Tidy depth e.2) : Tidy (depth + 1) (.table es)

theorem exists_plain_tables {es : List (String × Value)}
    (order : es.Pairwise fun a b => a.2.isTable = true → b.2.isTable = true) :
    ∃ plain tables, es = plain ++ tables ∧ (∀ e ∈ plain, e.2.isTable = false) ∧
      ∀ e ∈ tables, e.2.isTable = true := by
  induction es with
  | nil => exact ⟨[], [], rfl, by simp, by simp⟩
  | cons e es ih =>
    rw [List.pairwise_cons] at order
    cases he : e.2.isTable with
    | true => exact ⟨[], e :: es, rfl, by simp, List.forall_mem_cons.mpr
        ⟨he, fun e' he' => order.1 e' he' he⟩⟩
    | false =>
      obtain ⟨plain, tables, rfl, hplain, htables⟩ := ih order.2
      exact ⟨e :: plain, tables, rfl, List.forall_mem_cons.mpr ⟨he, hplain⟩, htables⟩

/-- A value that stands on the line of its key. -/
structure Plain (depth : Nat) (v : Value) : Prop where
  tidy : Tidy depth v
  isTable : v.isTable = false

theorem Tidy.of_keys (keys : List String) {depth : Nat} {plain tables : List (String × Value)}
    (hkeys : ((plain ++ tables).map Prod.fst).Sublist keys)
    (allowed : keys.Nodup ∧ ∀ key ∈ keys, Bare key) (hplain : ∀ e ∈ plain, Plain depth e.2)
    (htables : ∀ e ∈ tables, Tidy depth e.2 ∧ e.2.isTable = true) :
    Tidy (depth + 1) (.table (plain ++ tables)) := by
  refine .table (fun e he => allowed.2 e.1 (hkeys.subset (List.mem_map_of_mem he)))
    (allowed.1.sublist hkeys) ?_ ?_
  · refine List.pairwise_append.mpr ⟨?_, ?_, fun _ _ b hb _ => (htables b hb).2⟩
    · exact List.pairwise_of_forall_mem_list fun a ha b _ h => by
        rw [(hplain a ha).isTable] at h
        cases h
    · exact List.pairwise_of_forall_mem_list fun _ _ b hb _ => (htables b hb).2
  · exact List.forall_mem_append.mpr
      ⟨fun e he => (hplain e he).tidy, fun e he => (htables e he).1⟩

theorem Tidy.of_plain (keys : List String) {depth : Nat} {es : List (String × Value)}
    (hkeys : (es.map Prod.fst).Sublist keys) (allowed : keys.Nodup ∧ ∀ key ∈ keys, Bare key)
    (hplain : ∀ e ∈ es, Plain depth e.2) : Tidy (depth + 1) (.table es) := by
  rw [← List.append_nil es] at hkeys ⊢
  exact Tidy.of_keys keys hkeys allowed hplain (by simp)

theorem Tidy.filter {depth : Nat} {es : List (String × Value)} (h : Tidy depth (.table es))
    (p : String × Value → Bool) : Tidy depth (.table (es.filter p)) := by
  cases h with
  | table bare distinct order values =>
    have hsublist : (es.filter p).Sublist es := List.filter_sublist
    exact .table (fun e he => bare e (hsublist.subset he))
      (distinct.sublist (hsublist.map Prod.fst)) (order.sublist hsublist)
      fun e he => values e (hsublist.subset he)

namespace Entries

theorem get?_set_self (key : String) (n : Node) (es : Entries) :
    (es.set key n).get? key = some n := by
  fun_induction set key n es <;> simp_all [get?]

theorem set_set (key : String) (n n' : Node) (es : Entries) :
    (es.set key n).set key n' = es.set key n' := by
  fun_induction set key n es <;> simp_all [set]

end Entries

mutual

/-- The node of a value, with a header for every table. -/
def Node.ofValue : Value → Node
  | .table es => .table .opened (Entries.ofPairs es)
  | v => .leaf v

def Entries.ofPairs : List (String × Value) → Entries
  | [] => .nil
  | (k, v) :: es => .cons k (Node.ofValue v) (Entries.ofPairs es)

end

namespace Entries

theorem get?_ofPairs {key : String} {es : List (String × Value)} (h : key ∉ es.map Prod.fst) :
    (ofPairs es).get? key = none := by
  induction es with
  | nil => rfl
  | cons e es ih =>
    rw [List.map_cons, List.mem_cons, not_or] at h
    rw [ofPairs, get?, if_neg (Ne.symm h.1), ih h.2]

theorem set_ofPairs {key : String} {es : List (String × Value)} (h : key ∉ es.map Prod.fst)
    (v : Value) : (ofPairs es).set key (Node.ofValue v) = ofPairs (es ++ [(key, v)]) := by
  induction es with
  | nil => rfl
  | cons e es ih =>
    rw [List.map_cons, List.mem_cons, not_or] at h
    rw [List.cons_append, ofPairs, ofPairs, set, if_neg (Ne.symm h.1), ih h.2]

theorem toPairs_ofPairs {es : List (String × Value)}
    (h : ∀ e ∈ es, (Node.ofValue e.2).toValue = e.2) : (ofPairs es).toPairs = es := by
  induction es with
  | nil => rfl
  | cons e es ih =>
    rw [List.forall_mem_cons] at h
    rw [ofPairs, toPairs, h.1, ih h.2]

end Entries

theorem Tidy.toValue_ofValue {depth : Nat} {v : Value} (h : Tidy depth v) :
    (Node.ofValue v).toValue = v := by
  induction h with
  | string | integer | boolean => rfl
  | table bare distinct order values ih =>
    rw [Node.ofValue, Node.toValue, Entries.toPairs_ofPairs ih]

def plainPairs (es : List (String × Value)) : List Pair :=
  (es.filter fun e => !e.2.isTable).map fun e => ([e.1], e.2)

theorem not_mem_of_distinct {done es : List (String × Value)} {e : String × Value}
    (distinct : ((done ++ e :: es).map Prod.fst).Nodup) : e.1 ∉ done.map Prod.fst := by
  rw [List.map_append, List.map_cons] at distinct
  exact fun hmem => (List.nodup_append.mp distinct).2.2 _ hmem _ List.mem_cons_self rfl

theorem ofValue_of_not_isTable {v : Value} (h : v.isTable = false) : Node.ofValue v = .leaf v := by
  cases v with
  | table => cases h
  | _ => rfl

theorem insertPairs_plain {es : List (String × Value)} (done : List (String × Value))
    (hplain : ∀ e ∈ es, e.2.isTable = false) (distinct : ((done ++ es).map Prod.fst).Nodup) :
    insertPairs (plainPairs es) (.ofPairs done) = some (.ofPairs (done ++ es)) := by
  induction es generalizing done with
  | nil => simp [plainPairs, insertPairs]
  | cons e es ih =>
    rw [List.forall_mem_cons] at hplain
    have hnew := not_mem_of_distinct distinct
    have hadd : insertPair e.2 [e.1] none (.ofPairs done) = some (.ofPairs (done ++ [e])) := by
      simp only [insertPair, addPair, Option.any_none, Bool.false_eq_true, if_false,
        Entries.get?_ofPairs hnew]
      rw [← ofValue_of_not_isTable hplain.1, Entries.set_ofPairs hnew]
    rw [plainPairs, List.filter_cons_of_pos (by simpa using hplain.1)]
    change (insertPair e.2 [e.1] none (.ofPairs done)).bind (insertPairs (plainPairs es)) = _
    rw [hadd, Option.bind_some, List.append_cons done e es]
    exact ih (done ++ [e]) hplain.2 (by rwa [← List.append_cons])

/-! ## Tables -/

mutual

/-- The headers of a table and the tables in it, each with its pairs. -/
def tableBlocks (path : List String) : Value → List Block
  | .table es => { isRow := false, path, pairs := plainPairs es } :: innerBlocks path es
  | _ => []

def innerBlocks (path : List String) : List (String × Value) → List Block
  | [] => []
  | (k, v) :: es => tableBlocks (path ++ [k]) v ++ innerBlocks path es

end

theorem innerBlocks_eq (path : List String) (es : List (String × Value)) :
    innerBlocks path es = es.flatMap fun e => tableBlocks (path ++ [e.1]) e.2 := by
  induction es with
  | nil => rfl
  | cons e es ih => rw [innerBlocks, ih, List.flatMap_cons]

/-- A header behind a key. -/
def Block.under (key : String) (b : Block) : Block := { b with path := key :: b.path }

theorem Tidy.tableBlocks_cons {depth : Nat} {v : Value} (h : Tidy depth v) (key : String)
    (path : List String) :
    tableBlocks (key :: path) v = (tableBlocks path v).map (Block.under key) := by
  induction h generalizing path with
  | string | integer | boolean => rfl
  | @table depth es bare distinct order values ih =>
    rw [tableBlocks, tableBlocks, List.map_cons, innerBlocks_eq, innerBlocks_eq, List.map_flatMap]
    congr 1
    exact List.flatMap_congr fun e he => ih e he _

theorem innerBlocks_cons {depth : Nat} {es : List (String × Value)}
    (h : ∀ e ∈ es, Tidy depth e.2) (key : String) :
    innerBlocks [key] es = (innerBlocks [] es).map (Block.under key) := by
  rw [innerBlocks_eq, innerBlocks_eq, List.map_flatMap]
  exact List.flatMap_congr fun e he => (h e he).tableBlocks_cons key _

theorem Tidy.tableBlocks_path {depth : Nat} {v : Value} (h : Tidy depth v) {path : List String}
    (hne : path ≠ []) : ∀ b ∈ tableBlocks path v, b.isRow = false ∧ b.path ≠ [] := by
  induction h generalizing path with
  | string | integer | boolean => exact fun _ hb => by cases hb
  | @table depth es bare distinct order values ih =>
    rw [tableBlocks, List.forall_mem_cons, innerBlocks_eq]
    refine ⟨⟨rfl, hne⟩, fun b hb => ?_⟩
    obtain ⟨e, he, hb⟩ := List.mem_flatMap.mp hb
    exact ih e he (by simp) b hb

theorem innerBlocks_path {depth : Nat} {es : List (String × Value)}
    (h : ∀ e ∈ es, Tidy depth e.2) (path : List String) :
    ∀ b ∈ innerBlocks path es, b.isRow = false ∧ b.path ≠ [] := by
  intro b hb
  rw [innerBlocks_eq] at hb
  obtain ⟨e, he, hb⟩ := List.mem_flatMap.mp hb
  exact (h e he).tableBlocks_path (by simp) b hb

/-- What is built behind the key of a table is built in the table. -/
theorem addBlock_under {key : String} {b : Block} (hpath : b.path ≠ []) (es sub : Entries) :
    addBlock (es.set key (.table .opened sub)) (b.under key) =
      (addBlock sub b).map fun sub => es.set key (.table .opened sub) := by
  obtain ⟨last, parents, hlast⟩ := List.exists_cons_of_ne_nil (List.reverse_ne_nil_iff.mpr hpath)
  simp only [addBlock, Block.under, List.reverse_cons, hlast, List.cons_append,
    List.reverse_append, List.reverse_nil, List.nil_append, within, Entries.get?_set_self]
  simp only [Entries.set_set]
  rfl

theorem foldlM_addBlock_under {key : String} {bs : List Block} (hpath : ∀ b ∈ bs, b.path ≠ [])
    (es sub : Entries) :
    (bs.map (Block.under key)).foldlM addBlock (es.set key (.table .opened sub)) =
      (bs.foldlM addBlock sub).map fun sub => es.set key (.table .opened sub) := by
  induction bs generalizing sub with
  | nil => rfl
  | cons b bs ih =>
    rw [List.forall_mem_cons] at hpath
    rw [List.map_cons, List.foldlM_cons, List.foldlM_cons, addBlock_under hpath.1]
    cases addBlock sub b with
    | none => rfl
    | some sub => exact ih hpath.2 sub

/-- What the pairs and the headers of entries build. -/
def buildEntries (es : List (String × Value)) : Option Entries :=
  (insertPairs (plainPairs es) .nil).bind fun root => (innerBlocks [] es).foldlM addBlock root

theorem foldlM_tableBlocks {depth : Nat} {done es : List (String × Value)} {key : String}
    (hnew : key ∉ done.map Prod.fst) (h : Tidy depth (.table es))
    (hbuilt : buildEntries es = some (.ofPairs es)) :
    (tableBlocks [key] (.table es)).foldlM addBlock (.ofPairs done) =
      some (.ofPairs (done ++ [(key, .table es)])) := by
  cases h with
  | table bare distinct order values =>
    obtain ⟨root, hroot, hinner⟩ := Option.bind_eq_some_iff.mp hbuilt
    have hopen : addBlock (.ofPairs done)
          { isRow := false, path := [key], pairs := plainPairs es } =
        some ((Entries.ofPairs done).set key (.table .opened root)) := by
      simp [addBlock, within, openTable, Entries.get?_ofPairs hnew, hroot]
    have hpath : ∀ b ∈ innerBlocks [] es, b.path ≠ [] := fun b hb =>
      (innerBlocks_path values [] b hb).2
    rw [tableBlocks, List.foldlM_cons, hopen, innerBlocks_cons values key]
    change ((innerBlocks [] es).map (Block.under key)).foldlM addBlock _ = _
    rw [foldlM_addBlock_under hpath, hinner, Option.map_some, ← Entries.set_ofPairs hnew]
    rfl

theorem foldlM_innerBlocks {depth : Nat} {tables done : List (String × Value)}
    (htables : ∀ e ∈ tables, e.2.isTable = true) (distinct : ((done ++ tables).map Prod.fst).Nodup)
    (values : ∀ e ∈ tables, Tidy depth e.2)
    (hbuilt : ∀ e ∈ tables, ∀ es, e.2 = .table es → buildEntries es = some (.ofPairs es)) :
    (innerBlocks [] tables).foldlM addBlock (.ofPairs done) =
      some (.ofPairs (done ++ tables)) := by
  induction tables generalizing done with
  | nil => rw [List.append_nil]; rfl
  | cons e tables ih =>
    rw [List.forall_mem_cons] at htables values hbuilt
    obtain ⟨key, v⟩ := e
    cases v with
    | table es =>
      rw [innerBlocks, List.foldlM_append, List.nil_append,
        foldlM_tableBlocks (not_mem_of_distinct distinct) values.1 (hbuilt.1 es rfl),
        List.append_cons done (key, .table es) tables]
      exact ih htables.2 (by rwa [← List.append_cons]) values.2 hbuilt.2
    | _ => cases htables.1

theorem innerBlocks_of_plain {es : List (String × Value)} (h : ∀ e ∈ es, e.2.isTable = false)
    (path : List String) : innerBlocks path es = [] := by
  rw [innerBlocks_eq, List.flatMap_eq_nil_iff]
  intro e he
  have hplain := h e he
  cases hv : e.2 with
  | table => rw [hv] at hplain; cases hplain
  | _ => rfl

/-- The headers of a tidy table build it again. -/
theorem Tidy.buildEntries {depth : Nat} {v : Value} (h : Tidy depth v) :
    ∀ es, v = .table es → buildEntries es = some (.ofPairs es) := by
  induction h with
  | string | integer | boolean => exact fun _ h => by cases h
  | @table depth es bare distinct order values ih =>
    rintro _ ⟨rfl⟩
    obtain ⟨plain, tables, rfl, hplain, htables⟩ := exists_plain_tables order
    have hpairs : plainPairs (plain ++ tables) = plainPairs plain := by
      have hnone : tables.filter (fun e => !e.2.isTable) = [] :=
        List.filter_eq_nil_iff.mpr fun e he => by simp [htables e he]
      rw [plainPairs, plainPairs, List.filter_append, hnone, List.append_nil]
    have hblocks : innerBlocks [] (plain ++ tables) = innerBlocks [] tables := by
      rw [innerBlocks_eq, List.flatMap_append, ← innerBlocks_eq, ← innerBlocks_eq,
        innerBlocks_of_plain hplain, List.nil_append]
    have hroot : insertPairs (plainPairs plain) .nil = some (.ofPairs plain) :=
      insertPairs_plain [] hplain
        (distinct.sublist ((List.sublist_append_left plain tables).map Prod.fst))
    rw [Toml.buildEntries, hpairs, hblocks, hroot, Option.bind_some]
    exact foldlM_innerBlocks htables distinct
      (fun e he => values e (List.mem_append_right _ he))
      fun e he => ih e (List.mem_append_right _ he)

/-! ## Statements -/

def Statement.ofPair (p : Pair) : Statement := .pair p.1 p.2

def Block.statements (b : Block) : List Statement := .table b.path :: b.pairs.map Statement.ofPair

/-- The statements that a table of entries is written as. -/
def statementsOf (es : List (String × Value)) : List Statement :=
  (plainPairs es).map Statement.ofPair ++ (innerBlocks [] es).flatMap Block.statements

theorem blocksOf_pairs (pairs : List Pair) (rest : List Statement) :
    blocksOf (pairs.map Statement.ofPair ++ rest) =
      (pairs ++ (blocksOf rest).1, (blocksOf rest).2) := by
  induction pairs with
  | nil => rfl
  | cons p pairs ih =>
    rw [List.map_cons, List.cons_append, Statement.ofPair, blocksOf, ih]
    rfl

theorem blocksOf_statements (bs : List Block) (h : ∀ b ∈ bs, b.isRow = false) :
    blocksOf (bs.flatMap Block.statements) = ([], bs) := by
  induction bs with
  | nil => rfl
  | cons b bs ih =>
    rw [List.forall_mem_cons] at h
    obtain ⟨isRow, path, pairs⟩ := b
    obtain rfl : isRow = false := h.1
    rw [List.flatMap_cons, Block.statements, List.cons_append, blocksOf, blocksOf_pairs, ih h.2,
      List.append_nil]

theorem build?_statementsOf {depth : Nat} {es : List (String × Value)}
    (h : Tidy depth (.table es)) : build? (statementsOf es) = some es := by
  have hbuilt := h.buildEntries es rfl
  have hvalue := h.toValue_ofValue
  cases h with
  | table bare distinct order values =>
    have hblocks := blocksOf_statements (innerBlocks [] es) fun b hb =>
      (innerBlocks_path values [] b hb).1
    obtain ⟨root, hroot, hinner⟩ := Option.bind_eq_some_iff.mp hbuilt
    have hpairs : (Entries.ofPairs es).toPairs = es := Value.table.inj hvalue
    rw [build?, statementsOf, blocksOf_pairs, hblocks, List.append_nil]
    simp only [hroot, Option.bind_eq_bind, Option.bind_some, hinner, hpairs]
    rfl

end PacketWire.Toml
