import PacketWire.Settings.Load
import PacketWire.Proofs.Toml.RoundTrip

/-!
# Settings that are saved and loaded

What is saved in a file is loaded from it again, and so is any part of it (`loads_kept`). A
`Selection` says which sections and keys are kept; `Settings.kept` is what is then loaded, field by
field. A section that is there begins with other values than one that is not, so a key is not left
out in the same way as its section.
-/

namespace PacketWire

namespace Settings

open Toml

/-! ## Parts of a document -/

/-- Which sections of a document are kept, and which of their keys. -/
structure Selection where
  sections : String → Bool
  keys : String → String → Bool

def keepKeys (keys : String → Bool) : Value → Value
  | .table es => .table (es.filter fun e => keys e.1)
  | v => v

namespace Selection

def all : Selection := { sections := fun _ => true, keys := fun _ _ => true }

/-- The part of a document that is kept. -/
def of (sel : Selection) (es : List (String × Value)) : List (String × Value) :=
  (es.map fun e => (e.1, keepKeys (sel.keys e.1) e.2)).filter fun e => sel.sections e.1

theorem all_of (s : Settings) : all.of s.toDocument = s.toDocument := by
  simp [of, all, toDocument, keepKeys]

end Selection

/-! ## What is kept -/

def CodecSection.kept (keys : String → Bool) (s : CodecSection) : CodecSection :=
  let base : CodecSection := {}
  { threshold := if keys "compression_threshold" then s.threshold else base.threshold
    kind := if keys "compression" then s.kind else base.kind
    level := if keys "compression_level" then s.level else base.level
    maxFrame := if keys "max_frame_length" then s.maxFrame else base.maxFrame
    maxUncompressed :=
      if keys "max_uncompressed_length" then s.maxUncompressed else base.maxUncompressed }

/-- A section that is there without the length of the queue has no limit on it. -/
def PipeSection.kept (keys : String → Bool) (s : PipeSection) : PipeSection :=
  let base : PipeSection := {}
  { chunk := if keys "read_chunk_size" then s.chunk else base.chunk
    sendQueue := if keys "send_queue" then s.sendQueue else none
    inbound := if keys "inbound" then s.inbound else base.inbound
    outbound := if keys "outbound" then s.outbound else base.outbound }

def PoolSection.kept (keys : String → Bool) (s : PoolSection) : PoolSection :=
  let base : PoolSection := {}
  { preallocated := if keys "preallocated" then s.preallocated else base.preallocated
    maxPooledSize := if keys "max_pooled_buffer_size" then s.maxPooledSize else base.maxPooledSize
    maxOutstanding := if keys "max_outstanding" then s.maxOutstanding else base.maxOutstanding }

def LogSection.kept (keys : String → Bool) (s : LogSection) : LogSection :=
  let base : LogSection := {}
  { appName := if keys "app_name" then s.appName else base.appName
    level := if keys "log_level" then s.level else base.level
    toConsole := if keys "log_to_console" then s.toConsole else base.toConsole
    file := if keys "log_file_path" then s.file else base.file
    json := if keys "json_format" then s.json else base.json }

/-- What the kept part of a document describes: the values that are kept, and else the defaults. -/
def kept (sel : Selection) (s : Settings) : Settings :=
  let base : Settings := {}
  { codec := if sel.sections "codec" then s.codec.kept (sel.keys "codec") else base.codec
    pipe := if sel.sections "pipe" then s.pipe.kept (sel.keys "pipe") else base.pipe
    pool := if sel.sections "pool" then s.pool.kept (sel.keys "pool") else base.pool
    logging :=
      if sel.sections "logging" then s.logging.kept (sel.keys "logging") else base.logging }

theorem kept_all (s : Settings) : s.kept .all = s := rfl

/-- An entry and what reading it changes. -/
structure Change (σ : Type) where
  entry : String × Value
  act : σ → σ

def change {α σ : Type} (key : String) (v : Value) (put : α → σ → σ) (a : α) : Change σ :=
  { entry := (key, v), act := put a }

/-- Whether reading its entry is all that a change does. -/
def Change.ReadsAs {σ : Type} (fields : List (Field σ)) (x : Change σ) : Prop :=
  ∀ s, readEntry fields s x.entry = .ok (x.act s)

theorem readsAs_change {α σ : Type} {fields : List (Field σ)} {key : String}
    (read : String → Value → Except Fault α) {put : α → σ → σ}
    (hfield : fields.lookup key = some (field key read put).2) {v : Value} {a : α}
    (h : read key v = .ok a) : (change key v put a).ReadsAs fields := by
  intro s
  simp only [change, readEntry, hfield, field, h]
  rfl

/-- Each entry that is kept changes what it changes, and no other does. -/
theorem foldlM_readEntry {σ : Type} {fields : List (Field σ)} {changes : List (Change σ)}
    (h : ∀ x ∈ changes, x.ReadsAs fields) (keys : String → Bool) (s : σ) :
    ((changes.map Change.entry).filter fun e => keys e.1).foldlM (readEntry fields) s =
      .ok (changes.foldl (fun s x => if keys x.entry.1 then x.act s else s) s) := by
  induction changes generalizing s with
  | nil => rfl
  | cons x changes ih =>
    rw [List.forall_mem_cons] at h
    rw [List.map_cons, List.filter_cons, List.foldl_cons]
    split
    · rw [List.foldlM_cons, h.1]
      exact ih h.2 _
    · exact ih h.2 s

/-! ## Reading values -/

def largest : Nat := 9223372036854775807

theorem natOf_natValue {max n : Nat} (h : n ≤ max) (key : String) :
    natOf max key (natValue n) = .ok n := by
  rw [natValue, natOf, if_pos ⟨Int.natCast_nonneg n, by simpa using h⟩, Int.toNat_natCast]

theorem wordOf_natValue {n : Nat} (h : n ≤ largest) (key : String) :
    wordOf key (natValue n) = .ok n :=
  natOf_natValue (Nat.le_trans h (by decide)) key

theorem int32Of_toInt (n : Int32) (key : String) : int32Of key (.integer n.toInt) = .ok n := by
  have hlow := n.le_toInt
  have hhigh := n.toInt_le
  rw [int32Of, if_pos ⟨hlow, hhigh⟩, Int32.ofInt_toInt]

theorem kindOf_kindValue (k : Compression.Kind) : kindOf (kindValue k) = .ok k := by
  cases k <;> rfl

theorem levelOf_name (l : Log.Level) : levelOf (.string l.name) = .ok l := by
  simp only [levelOf, stringOf, bind, Except.bind, Log.Level.ofText?_name]
  rfl

def fitsCapacity (c : Capacity) : Prop := ∀ n, c = .bounded n → n ≤ largest

theorem capacityOf_capacityValue {c : Capacity} (h : fitsCapacity c) (key : String) :
    capacityOf key (capacityValue c) = .ok c := by
  cases c with
  | unbounded => rfl
  | bounded n =>
    change (wordOf "bytes" (natValue n)).map Capacity.bounded = _
    rw [wordOf_natValue (h n rfl)]
    rfl

theorem foldlM_of_changes {σ : Type} {fields : List (Field σ)} {changes : List (Change σ)}
    {es : List (String × Value)} (hentries : changes.map Change.entry = es)
    (h : ∀ x ∈ changes, x.ReadsAs fields) (keys : String → Bool) {s s' : σ}
    (hkept : changes.foldl (fun s x => if keys x.entry.1 then x.act s else s) s = s') :
    (es.filter fun e => keys e.1).foldlM (readEntry fields) s = .ok s' := by
  rw [← hentries, ← hkept]
  exact foldlM_readEntry h keys s

def CodecSection.changes (s : CodecSection) : List (Change CodecSection) :=
  [change "compression_threshold" (.integer s.threshold.toInt)
      (fun a c => { c with threshold := a }) s.threshold,
    change "compression" (kindValue s.kind) (fun a c => { c with kind := a }) s.kind,
    change "compression_level" (natValue s.level) (fun a c => { c with level := a }) s.level,
    change "max_frame_length" (natValue s.maxFrame)
      (fun a c => { c with maxFrame := a }) s.maxFrame,
    change "max_uncompressed_length" (natValue s.maxUncompressed)
      (fun a c => { c with maxUncompressed := a }) s.maxUncompressed]

theorem codecOf_kept {s : CodecSection} (hlevel : s.level ≤ Text.max32)
    (hframe : s.maxFrame ≤ largest) (huncompressed : s.maxUncompressed ≤ largest)
    (keys : String → Bool) : codecOf (keepKeys keys (.table s.toEntries)) = .ok (s.kept keys) := by
  have hreads : ∀ x ∈ s.changes, x.ReadsAs codecFields := by
    simp only [CodecSection.changes, List.forall_mem_cons]
    exact ⟨readsAs_change int32Of rfl (int32Of_toInt _ _),
      readsAs_change (fun _ => kindOf) rfl (kindOf_kindValue _),
      readsAs_change (natOf Text.max32) rfl (natOf_natValue hlevel _),
      readsAs_change wordOf rfl (wordOf_natValue hframe _),
      readsAs_change wordOf rfl (wordOf_natValue huncompressed _), by simp⟩
  refine foldlM_of_changes rfl hreads keys ?_
  simp only [CodecSection.changes, change, List.foldl_cons, List.foldl_nil, CodecSection.kept]
  cases keys "compression_threshold" <;> cases keys "compression" <;>
    cases keys "compression_level" <;> cases keys "max_frame_length" <;>
    cases keys "max_uncompressed_length" <;> rfl

def PipeSection.changes (s : PipeSection) : List (Change PipeSection) :=
  [change "read_chunk_size" (natValue s.chunk) (fun a c => { c with chunk := a }) s.chunk] ++
  (s.sendQueue.map fun n =>
    change "send_queue" (natValue n) (fun a c => { c with sendQueue := some a }) n).toList ++
  [change "inbound" (capacityValue s.inbound) (fun a c => { c with inbound := a }) s.inbound,
    change "outbound" (capacityValue s.outbound) (fun a c => { c with outbound := a }) s.outbound]

theorem pipeOf_kept {s : PipeSection} (hchunk : s.chunk ≤ largest)
    (hqueue : ∀ n, s.sendQueue = some n → n ≤ largest) (hinbound : fitsCapacity s.inbound)
    (houtbound : fitsCapacity s.outbound) (keys : String → Bool) :
    pipeOf (keepKeys keys (.table s.toEntries)) = .ok (s.kept keys) := by
  have hentries : s.changes.map Change.entry = s.toEntries := by
    unfold PipeSection.changes PipeSection.toEntries
    cases s.sendQueue <;> rfl
  have hreads : ∀ x ∈ s.changes, x.ReadsAs pipeFields := by
    simp only [PipeSection.changes, List.forall_mem_append, List.forall_mem_cons]
    refine ⟨⟨⟨readsAs_change wordOf rfl (wordOf_natValue hchunk _), by simp⟩, ?_⟩,
      readsAs_change capacityOf rfl (capacityOf_capacityValue hinbound _),
      readsAs_change capacityOf rfl (capacityOf_capacityValue houtbound _), by simp⟩
    intro x hx
    obtain ⟨n, hn, rfl⟩ := Option.map_eq_some_iff.mp (Option.mem_toList.mp hx)
    exact readsAs_change wordOf rfl (wordOf_natValue (hqueue n hn) _)
  refine foldlM_of_changes hentries hreads keys ?_
  unfold PipeSection.changes PipeSection.kept
  cases s.sendQueue <;>
    simp only [change, Option.map_none, Option.map_some, Option.toList_none, Option.toList_some,
      List.cons_append, List.nil_append, List.foldl_cons, List.foldl_nil] <;>
    cases keys "read_chunk_size" <;> cases keys "send_queue" <;> cases keys "inbound" <;>
    cases keys "outbound" <;> rfl

def PoolSection.changes (s : PoolSection) : List (Change PoolSection) :=
  [change "preallocated" (natValue s.preallocated)
      (fun a c => { c with preallocated := a }) s.preallocated,
    change "max_pooled_buffer_size" (natValue s.maxPooledSize)
      (fun a c => { c with maxPooledSize := a }) s.maxPooledSize,
    change "max_outstanding" (natValue s.maxOutstanding)
      (fun a c => { c with maxOutstanding := a }) s.maxOutstanding]

theorem poolOf_kept {s : PoolSection} (hpreallocated : s.preallocated ≤ largest)
    (hpooled : s.maxPooledSize ≤ largest) (houtstanding : s.maxOutstanding ≤ largest)
    (keys : String → Bool) : poolOf (keepKeys keys (.table s.toEntries)) = .ok (s.kept keys) := by
  have hreads : ∀ x ∈ s.changes, x.ReadsAs poolFields := by
    simp only [PoolSection.changes, List.forall_mem_cons]
    exact ⟨readsAs_change wordOf rfl (wordOf_natValue hpreallocated _),
      readsAs_change wordOf rfl (wordOf_natValue hpooled _),
      readsAs_change wordOf rfl (wordOf_natValue houtstanding _), by simp⟩
  refine foldlM_of_changes rfl hreads keys ?_
  simp only [PoolSection.changes, change, List.foldl_cons, List.foldl_nil, PoolSection.kept]
  cases keys "preallocated" <;> cases keys "max_pooled_buffer_size" <;>
    cases keys "max_outstanding" <;> rfl

def LogSection.changes (s : LogSection) : List (Change LogSection) :=
  [change "app_name" (.string s.appName) (fun a c => { c with appName := a }) s.appName,
    change "log_level" (.string s.level.name) (fun a c => { c with level := a }) s.level,
    change "log_to_console" (.boolean s.toConsole) (fun a c => { c with toConsole := a })
      s.toConsole] ++
  (s.file.map fun path =>
    change "log_file_path" (.string path) (fun a c => { c with file := some a }) path).toList ++
  [change "json_format" (.boolean s.json) (fun a c => { c with json := a }) s.json]

theorem logOf_kept (s : LogSection) (keys : String → Bool) :
    logOf (keepKeys keys (.table s.toEntries)) = .ok (s.kept keys) := by
  have hentries : s.changes.map Change.entry = s.toEntries := by
    unfold LogSection.changes LogSection.toEntries
    cases s.file <;> rfl
  have hreads : ∀ x ∈ s.changes, x.ReadsAs logFields := by
    simp only [LogSection.changes, List.forall_mem_append, List.forall_mem_cons]
    refine ⟨⟨⟨readsAs_change stringOf rfl rfl,
      readsAs_change (fun _ => levelOf) rfl (levelOf_name _), readsAs_change boolOf rfl rfl,
      by simp⟩, ?_⟩, readsAs_change boolOf rfl rfl, by simp⟩
    intro x hx
    obtain ⟨path, -, rfl⟩ := Option.map_eq_some_iff.mp (Option.mem_toList.mp hx)
    exact readsAs_change stringOf rfl rfl
  refine foldlM_of_changes hentries hreads keys ?_
  unfold LogSection.changes LogSection.kept
  cases s.file <;>
    simp only [change, Option.map_none, Option.map_some, Option.toList_none, Option.toList_some,
      List.cons_append, List.nil_append, List.foldl_cons, List.foldl_nil] <;>
    cases keys "app_name" <;> cases keys "log_level" <;> cases keys "log_to_console" <;>
    cases keys "log_file_path" <;> cases keys "json_format" <;> rfl

/-- Whether a document holds every number in settings. -/
structure Bounded (s : Settings) : Prop where
  level : s.codec.level ≤ Text.max32
  maxFrame : s.codec.maxFrame ≤ largest
  maxUncompressed : s.codec.maxUncompressed ≤ largest
  chunk : s.pipe.chunk ≤ largest
  sendQueue : ∀ n, s.pipe.sendQueue = some n → n ≤ largest
  inbound : fitsCapacity s.pipe.inbound
  outbound : fitsCapacity s.pipe.outbound
  preallocated : s.pool.preallocated ≤ largest
  maxPooledSize : s.pool.maxPooledSize ≤ largest
  maxOutstanding : s.pool.maxOutstanding ≤ largest

theorem bounded_of_fits {s : Settings} (hfits : s.fits = true)
    (hlevel : s.codec.level ≤ Text.max32) : s.Bounded := by
  have hsizes : ∀ n ∈ s.sizes, n ≤ largest := fun n hn =>
    of_decide_eq_true (List.all_eq_true.mp hfits n hn)
  have hcapacity {c : Capacity} (hc : ∀ n, c = .bounded n → n ∈ s.sizes) : fitsCapacity c :=
    fun n h => hsizes n (hc n h)
  refine ⟨hlevel, hsizes _ ?_, hsizes _ ?_, hsizes _ ?_, fun n h => hsizes _ ?_,
    hcapacity fun n h => ?_, hcapacity fun n h => ?_, hsizes _ ?_, hsizes _ ?_, hsizes _ ?_⟩ <;>
    simp [sizes, *]

/-- What is kept of a document is read as what is kept of the settings. -/
theorem ofDocument_kept {s : Settings} (h : s.Bounded) (sel : Selection) :
    ofDocument (sel.of s.toDocument) = .ok (s.kept sel) := by
  have hreads : ∀ x ∈
      [change "codec" (keepKeys (sel.keys "codec") (.table s.codec.toEntries))
          (fun a (s : Settings) => { s with codec := a }) (s.codec.kept (sel.keys "codec")),
        change "pipe" (keepKeys (sel.keys "pipe") (.table s.pipe.toEntries))
          (fun a s => { s with pipe := a }) (s.pipe.kept (sel.keys "pipe")),
        change "pool" (keepKeys (sel.keys "pool") (.table s.pool.toEntries))
          (fun a s => { s with pool := a }) (s.pool.kept (sel.keys "pool")),
        change "logging" (keepKeys (sel.keys "logging") (.table s.logging.toEntries))
          (fun a s => { s with logging := a }) (s.logging.kept (sel.keys "logging"))],
      x.ReadsAs sectionFields := by
    simp only [List.forall_mem_cons]
    exact ⟨readsAs_change (fun _ => codecOf) rfl
        (codecOf_kept h.level h.maxFrame h.maxUncompressed _),
      readsAs_change (fun _ => pipeOf) rfl
        (pipeOf_kept h.chunk h.sendQueue h.inbound h.outbound _),
      readsAs_change (fun _ => poolOf) rfl
        (poolOf_kept h.preallocated h.maxPooledSize h.maxOutstanding _),
      readsAs_change (fun _ => logOf) rfl (logOf_kept _ _), by simp⟩
  refine foldlM_of_changes rfl hreads sel.sections ?_
  simp only [change, List.foldl_cons, List.foldl_nil, kept]
  cases sel.sections "codec" <;> cases sel.sections "pipe" <;> cases sel.sections "pool" <;>
    cases sel.sections "logging" <;> rfl

theorem plain_natValue {n : Nat} (h : n ≤ largest) (depth : Nat) : Plain depth (natValue n) := by
  refine ⟨.integer depth (if_pos ⟨?_, Int.ofNat_le.mpr h⟩), rfl⟩
  have hnonneg := Int.natCast_nonneg n
  simp only [maxInteger]
  omega

theorem plain_threshold (n : Int32) (depth : Nat) : Plain depth (.integer n.toInt) := by
  have hlow : -2147483648 ≤ n.toInt := n.le_toInt
  have hhigh : n.toInt ≤ 2147483647 := n.toInt_le
  refine ⟨.integer depth (if_pos ?_), rfl⟩
  simp only [maxInteger]
  omega

theorem plain_string (text : String) (depth : Nat) : Plain depth (.string text) :=
  ⟨.string depth text, rfl⟩

theorem plain_boolean (b : Bool) (depth : Nat) : Plain depth (.boolean b) :=
  ⟨.boolean depth b, rfl⟩

theorem plain_kindValue (k : Compression.Kind) (depth : Nat) : Plain depth (kindValue k) := by
  cases k <;> exact plain_string _ depth

theorem plain_optional {depth : Nat} {key : String} {v : Option Value}
    (h : ∀ a, v = some a → Plain depth a) : ∀ e ∈ optional key v, Plain depth e.2 := by
  cases v with
  | none => exact fun e he => by cases he
  | some a => exact fun e he => List.mem_singleton.mp he ▸ h a rfl

theorem tidy_capacityValue {c : Capacity} (h : fitsCapacity c) (depth : Nat) :
    Tidy (depth + 1) (capacityValue c) ∧ (capacityValue c).isTable = true := by
  cases c with
  | unbounded =>
    refine ⟨Tidy.of_plain ["policy"] (.refl _) (by decide) ?_, rfl⟩
    simp only [List.forall_mem_cons]
    exact ⟨plain_string _ depth, by simp⟩
  | bounded n =>
    refine ⟨Tidy.of_plain ["policy", "bytes"] (.refl _) (by decide) ?_, rfl⟩
    simp only [List.forall_mem_cons]
    exact ⟨plain_string _ depth, plain_natValue (h n rfl) depth, by simp⟩

theorem tidy_codec {s : Settings} (h : s.Bounded) (depth : Nat) :
    Tidy (depth + 1) (.table s.codec.toEntries) := by
  refine Tidy.of_plain ["compression_threshold", "compression", "compression_level",
    "max_frame_length", "max_uncompressed_length"] (.refl _) (by decide) ?_
  simp only [CodecSection.toEntries, List.forall_mem_cons]
  exact ⟨plain_threshold _ depth, plain_kindValue _ depth,
    plain_natValue (Nat.le_trans h.level (by decide)) depth, plain_natValue h.maxFrame depth,
    plain_natValue h.maxUncompressed depth, by simp⟩

theorem tidy_pipe {s : Settings} (h : s.Bounded) (depth : Nat) :
    Tidy (depth + 2) (.table s.pipe.toEntries) := by
  refine Tidy.of_keys ["read_chunk_size", "send_queue", "inbound", "outbound"] ?_ (by decide) ?_ ?_
  · cases s.pipe.sendQueue with
    | none => exact .cons_cons _ (.cons _ (.refl _))
    | some n => exact .refl _
  · simp only [List.forall_mem_append, List.forall_mem_cons]
    refine ⟨⟨plain_natValue h.chunk _, by simp⟩, plain_optional fun v hv => ?_⟩
    obtain ⟨n, hn, rfl⟩ := Option.map_eq_some_iff.mp hv
    exact plain_natValue (h.sendQueue n hn) _
  · simp only [List.forall_mem_cons]
    exact ⟨tidy_capacityValue h.inbound depth, tidy_capacityValue h.outbound depth, by simp⟩

theorem tidy_pool {s : Settings} (h : s.Bounded) (depth : Nat) :
    Tidy (depth + 1) (.table s.pool.toEntries) := by
  refine Tidy.of_plain ["preallocated", "max_pooled_buffer_size", "max_outstanding"] (.refl _)
    (by decide) ?_
  simp only [PoolSection.toEntries, List.forall_mem_cons]
  exact ⟨plain_natValue h.preallocated depth, plain_natValue h.maxPooledSize depth,
    plain_natValue h.maxOutstanding depth, by simp⟩

theorem tidy_logging (s : LogSection) (depth : Nat) : Tidy (depth + 1) (.table s.toEntries) := by
  refine Tidy.of_plain
    ["app_name", "log_level", "log_to_console", "log_file_path", "json_format"] ?_ (by decide) ?_
  · unfold LogSection.toEntries
    cases s.file with
    | none => exact .cons_cons _ (.cons_cons _ (.cons_cons _ (.cons _ (.refl _))))
    | some path => exact .refl _
  · simp only [LogSection.toEntries, List.forall_mem_append, List.forall_mem_cons]
    refine ⟨⟨⟨plain_string _ depth, plain_string _ depth, plain_boolean _ depth, by simp⟩,
      plain_optional fun v hv => ?_⟩, plain_boolean _ depth, by simp⟩
    obtain ⟨path, -, rfl⟩ := Option.map_eq_some_iff.mp hv
    exact plain_string path depth

theorem tidy_keepKeys {depth : Nat} {v : Value} (h : Tidy depth v) (keys : String → Bool) :
    Tidy depth (keepKeys keys v) ∧ (keepKeys keys v).isTable = v.isTable := by
  cases v with
  | table es => exact ⟨h.filter _, rfl⟩
  | _ => exact ⟨h, rfl⟩

theorem tidy_kept {s : Settings} (h : s.Bounded) (sel : Selection) (depth : Nat) :
    Tidy (depth + 3) (.table (sel.of s.toDocument)) := by
  refine Tidy.filter ?_ _
  rw [← List.nil_append (s.toDocument.map _)]
  refine Tidy.of_keys ["codec", "pipe", "pool", "logging"] (.refl _) (by decide) (by simp) ?_
  simp only [toDocument, List.map_cons, List.forall_mem_cons]
  exact ⟨tidy_keepKeys (tidy_codec h (depth + 1)) _, tidy_keepKeys (tidy_pipe h depth) _,
    tidy_keepKeys (tidy_pool h (depth + 1)) _, tidy_keepKeys (tidy_logging s.logging (depth + 1)) _,
    by simp⟩

/-! ## Saving and loading -/

theorem ofText_of_document? {text : String} {es : List (String × Value)}
    (h : document? text = some es) {s : Settings} (hs : ofDocument es = .ok s) :
    ofText text = .ok s := by
  simp only [ofText, ofTextFault, h, hs]

theorem ofFile_toUTF8 (text : String) : ofFile (some text.toUTF8) = ofText text := by
  have htext : String.fromUTF8? text.toUTF8 = some text := by
    rw [String.toUTF8_eq_toByteArray, String.fromUTF8?, dif_pos text.isValidUTF8]
    rfl
  simp only [ofFile, htext]

@[simp] theorem load_put (path : String) (bytes : ByteArray) (files : Files) :
    load path (files.put path bytes) = ofFile (some bytes) := by
  simp only [load, Files.put, if_pos]

theorem save_eq {s : Settings} (hfits : s.fits = true) (path : String) (how : Writing)
    (files : Files) :
    s.save path how files =
      let written := files.write path (render s.toDocument).toUTF8 how
      (written.1.mapError fun why => .config ("Failed to write config file: " ++ why),
        written.2) := by
  simp only [save, toText, if_pos hfits]
  cases how <;> rfl

/-- Settings are saved as a text and loaded as the same; where the system does not write all of it,
that is an error. Every text that is read as the kept part of their document is loaded as the values
that are kept and, for everything else, the defaults. -/
theorem loads_kept (s : Settings) (hfits : s.fits = true) (hlevel : s.codec.level ≤ Text.max32) :
    (∃ text, document? text = some s.toDocument ∧ ∀ (path : String) (files : Files),
      let failure (why : String) : WireError := .config ("Failed to write config file: " ++ why)
      s.save path .whole files = (.ok (), files.put path text.toUTF8) ∧
      load path (files.put path text.toUTF8) = .ok s ∧
      (∀ why, s.save path (.refused why) files = (.error (failure why), files)) ∧
      ∀ count why, s.save path (.cut count why) files =
        (.error (failure why), files.put path (text.toUTF8.extract 0 count))) ∧
    ∀ sel : Selection,
      document? (render (sel.of s.toDocument)) = some (sel.of s.toDocument) ∧
      (∀ text, document? text = some (sel.of s.toDocument) → ofText text = .ok (s.kept sel)) ∧
      (s.kept sel).pipe.sendQueue =
        if sel.sections "pipe" then
          if sel.keys "pipe" "send_queue" then s.pipe.sendQueue else none
        else some 1024 := by
  have hbounded := bounded_of_fits hfits hlevel
  have hdocument (sel : Selection) :
      document? (render (sel.of s.toDocument)) = some (sel.of s.toDocument) :=
    document?_render (tidy_kept hbounded sel 77)
  have htext : document? (render s.toDocument) = some s.toDocument := by
    have hall := hdocument .all
    rwa [Selection.all_of] at hall
  have hload : ofFile (some (render s.toDocument).toUTF8) = .ok s := by
    have hall := ofText_of_document? (hdocument .all) (ofDocument_kept hbounded .all)
    rwa [Selection.all_of, kept_all, ← ofFile_toUTF8] at hall
  refine ⟨⟨render s.toDocument, htext, fun path files => ?_⟩, fun sel =>
    ⟨hdocument sel, fun text h => ofText_of_document? h (ofDocument_kept hbounded sel), ?_⟩⟩
  · exact ⟨save_eq hfits path .whole files, (load_put ..).trans hload,
      fun why => save_eq hfits path (.refused why) files,
      fun count why => save_eq hfits path (.cut count why) files⟩
  · rw [kept]
    cases sel.sections "pipe" <;> rfl

/-- Settings with a limit on the queue, saved in place of another file, and first in vain. -/
theorem loads_kept_pipe :
    let s : Settings :=
      { pipe := { sendQueue := some 7, inbound := .unbounded },
        logging := { appName := "'a' \"b\"\n" } }
    let sel : Selection := { sections := (· = "pipe"), keys := fun _ key => key ≠ "send_queue" }
    let text := "[pipe]\nread_chunk_size = 8192\n\n[pipe.inbound]\npolicy = \"unbounded\"\n\n" ++
      "[pipe.outbound]\npolicy = \"bounded\"\nbytes = 65536\n"
    let files : Files := { content := fun _ => some "[codec]
".toUTF8 }
    s.fits = true ∧ s.codec.level ≤ Text.max32 ∧ render (sel.of s.toDocument) = text ∧
      ofText text = .ok { pipe := { sendQueue := none, inbound := .unbounded } } ∧
      s.save "wire.toml" (.refused "Permission denied") files =
        (.error (.config "Failed to write config file: Permission denied"), files) ∧
      ∃ files', s.save "wire.toml" .whole files = (.ok (), files') ∧
        load "wire.toml" files' = .ok s := by
  intro s sel text files
  have htext : render (sel.of s.toDocument) = text := by decide +kernel
  obtain ⟨⟨saved, -, hsaved⟩, hkept⟩ := loads_kept s (by decide) (by decide)
  obtain ⟨hdocument, htexts, -⟩ := hkept sel
  obtain ⟨hsave, hload, hrefused, -⟩ := hsaved "wire.toml" files
  exact ⟨by decide, by decide, htext, htexts text (htext ▸ hdocument),
    hrefused "Permission denied", _, hsave, hload⟩

end Settings

end PacketWire
