import ParLib.NetworkId
import ParLib.Wire.ByteStreams

/-!
# Assignments as bytes

`Serialize` goes through an unordered map in an order of the map's own, which
is an input here. `Deserialize` inserts the entries one by one into the map it
is called on.
-/

namespace ParLib.Wire

set_option autoImplicit false

open Foundations Reader ByteInputStream

structure StackAssignment where
  assignments : AList fun _ : NetworkId => List (List Int32)

abbrev Entry := Σ _ : NetworkId, List (List Int32)

namespace StackAssignment

def empty : StackAssignment := ⟨∅⟩

def find? (a : StackAssignment) (client : NetworkId) : Option (List (List Int32)) :=
  a.assignments.lookup client

def setAssignment (a : StackAssignment) (client : NetworkId) (states : List (List Int32)) :
    StackAssignment := ⟨a.assignments.insert client states⟩

/-- What `operator==` compares. -/
def Equal (a b : StackAssignment) : Prop := ∀ k, a.find? k = b.find? k

/-- An order in which a loop over the map may meet its entries. -/
def IsOrder (a : StackAssignment) (order : List Entry) : Prop := order.Perm a.assignments.entries

def serialize (order : List Entry) (bos : ByteOutputStream) : ByteOutputStream :=
  order.foldl (fun bos each => (bos.putString each.1).putIntArrayArray each.2)
    (bos.putInt32 (int32OfSize order.length))

def nextEntry (scratch : Bytes) : Reader Byte Entry := do
  let name ← nextString scratch
  let states ← nextIntArrayArray
  return ⟨name, states⟩

def deserialize (scratch : Bytes) (a : StackAssignment) : Reader Byte StackAssignment := do
  let count ← nextInt32
  loop (nextEntry scratch) (fun a each => a.setAssignment each.1 each.2) count.toInt.toNat a

/-- Sizes that fit into an `int`. -/
structure Sized (a : StackAssignment) : Prop where
  size : a.assignments.entries.length < 2 ^ 31
  id : ∀ e ∈ a.assignments.entries, e.1.length < 2 ^ 31
  states : ∀ e ∈ a.assignments.entries, e.2.length < 2 ^ 31 ∧ ∀ s ∈ e.2, s.length < 2 ^ 31

/-- Ids without NUL, and sizes that fit into an `int`. -/
structure Encodable (a : StackAssignment) : Prop where
  size : a.assignments.entries.length < 2 ^ 31
  id : ∀ e ∈ a.assignments.entries, 0 ∉ e.1 ∧ e.1.length < 2 ^ 31
  states : ∀ e ∈ a.assignments.entries, e.2.length < 2 ^ 31 ∧ ∀ s ∈ e.2, s.length < 2 ^ 31

instance (a : StackAssignment) : Decidable a.Encodable :=
  decidable_of_iff (a.assignments.entries.length < 2 ^ 31 ∧
    (∀ e ∈ a.assignments.entries, 0 ∉ e.1 ∧ e.1.length < 2 ^ 31) ∧
    ∀ e ∈ a.assignments.entries, e.2.length < 2 ^ 31 ∧ ∀ s ∈ e.2, s.length < 2 ^ 31)
    ⟨fun h => ⟨h.1, h.2.1, h.2.2⟩, fun h => ⟨h.size, h.id, h.states⟩⟩

theorem Encodable.sized {a : StackAssignment} (h : a.Encodable) : a.Sized :=
  ⟨h.size, fun e he => (h.id e he).2, h.states⟩

/-- With a NUL at its end, the length of every id is still an `int`. -/
def ShortIds (a : StackAssignment) : Prop :=
  ∀ e ∈ a.assignments.entries, e.1.length < 2 ^ 31 - 1

instance (a : StackAssignment) : Decidable a.ShortIds := inferInstanceAs (Decidable (∀ e ∈ _, _))

/-- An entry as it is read back. -/
def cutName (e : Entry) : Entry := ⟨cString e.1, e.2⟩

end StackAssignment

def stringBytes (str : Bytes) : Bytes := int32Bytes (int32OfSize str.length) ++ str

def arrayBytes {α : Type} (item : α → Bytes) (items : List α) : Bytes :=
  int32Bytes (int32OfSize items.length) ++ items.flatMap item

abbrev intArrayArrayBytes : List (List Int32) → Bytes := arrayBytes (arrayBytes int32Bytes)

def entryBytes (e : Entry) : Bytes := stringBytes e.1 ++ intArrayArrayBytes e.2

namespace ByteOutputStream

theorem data_foldl {α : Type} {put : ByteOutputStream → α → ByteOutputStream} (item : α → Bytes)
    (h : ∀ bos a, (put bos a).data = bos.data ++ item a) (items : List α) (bos : ByteOutputStream) :
    (items.foldl put bos).data = bos.data ++ items.flatMap item := by
  induction items generalizing bos with
  | nil => simp
  | cons a items ih => rw [List.foldl_cons, ih, h, List.flatMap_cons, List.append_assoc]

theorem data_putInt32 (bos : ByteOutputStream) (num : Int32) :
    (bos.putInt32 num).data = bos.data ++ int32Bytes num := by
  rw [putInt32, data_foldl (fun b => [b]) fun _ _ => rfl]
  simp

theorem data_putString (bos : ByteOutputStream) (str : Bytes) :
    (bos.putString str).data = bos.data ++ stringBytes str := by
  rw [putString, data_foldl (fun b => [b]) fun _ _ => rfl, data_putInt32, stringBytes]
  simp

theorem data_putIntArray (bos : ByteOutputStream) (arr : List Int32) :
    (bos.putIntArray arr).data = bos.data ++ arrayBytes int32Bytes arr := by
  rw [putIntArray, data_foldl _ data_putInt32, data_putInt32, arrayBytes, List.append_assoc]

theorem data_putIntArrayArray (bos : ByteOutputStream) (arr : List (List Int32)) :
    (bos.putIntArrayArray arr).data = bos.data ++ intArrayArrayBytes arr := by
  rw [putIntArrayArray, data_foldl _ data_putIntArray, data_putInt32, intArrayArrayBytes,
    arrayBytes, List.append_assoc]

end ByteOutputStream

theorem data_serialize (order : List Entry) (bos : ByteOutputStream) :
    (StackAssignment.serialize order bos).data = bos.data ++ arrayBytes entryBytes order := by
  have hput : ∀ (bos : ByteOutputStream) (e : Entry),
      ((bos.putString e.1).putIntArrayArray e.2).data = bos.data ++ entryBytes e := by
    intro bos e
    rw [ByteOutputStream.data_putIntArrayArray, ByteOutputStream.data_putString, entryBytes,
      List.append_assoc]
  rw [StackAssignment.serialize, ByteOutputStream.data_foldl _ hput, ByteOutputStream.data_putInt32,
    arrayBytes, List.append_assoc]

section Texts

theorem cString_of_not_mem {str : Bytes} (h : 0 ∉ str) : cString str = str := by
  rw [cString, List.takeWhile_eq_self_iff]
  intro b hb
  simpa using ne_of_mem_of_not_mem hb h

theorem stringText_stringBytes {str : Bytes} (hlen : str.length < 2 ^ 31) :
    StringText (stringBytes str) (cString str) :=
  ⟨_, str, rfl, (toInt_int32OfSize hlen).symm, rfl⟩

theorem textOf_flatMap {α β : Type} {text : Bytes → β → Prop} {item : α → Bytes} {f : α → β}
    {items : List α} (h : ∀ a ∈ items, text (item a) (f a)) :
    TextOf text (items.flatMap item) (items.map f) := by
  refine ⟨items.map item, List.flatMap_def, ?_⟩
  rw [List.forall₂_map_left_iff, List.forall₂_map_right_iff, List.forall₂_same]
  exact h

/-- The items may be read as something else than what was written. -/
theorem arrayText_map {α β : Type} {text : Bytes → β → Prop} {item : α → Bytes} {f : α → β}
    {items : List α} (hlen : items.length < 2 ^ 31) (h : ∀ a ∈ items, text (item a) (f a)) :
    ArrayText text (arrayBytes item items) (items.map f) := by
  refine ⟨_, _, rfl, ?_, textOf_flatMap h⟩
  rw [toInt_int32OfSize hlen, Int.toNat_natCast, List.length_map]

theorem arrayText_arrayBytes {α : Type} {text : Bytes → α → Prop} {item : α → Bytes}
    {items : List α} (hlen : items.length < 2 ^ 31) (h : ∀ a ∈ items, text (item a) a) :
    ArrayText text (arrayBytes item items) items := by
  have hitems := arrayText_map (f := id) hlen h
  rwa [List.map_id] at hitems

end Texts

def EntryText (bs : Bytes) (e : Entry) : Prop :=
  ∃ bs₁ bs₂, bs = bs₁ ++ bs₂ ∧ StringText bs₁ e.1 ∧ ArrayText (ArrayText Int32Text) bs₂ e.2

def ShortEntryText (bs : Bytes) (e : Entry) : Prop :=
  ∃ bs₁ bs₂, bs = bs₁ ++ bs₂ ∧ ShortStringText bs₁ e.1 ∧ ArrayText (ArrayText Int32Text) bs₂ e.2

theorem ShortEntryText.entryText {bs : Bytes} {e : Entry} (h : ShortEntryText bs e) :
    EntryText bs e := by
  obtain ⟨bs₁, bs₂, rfl, hname, hstates⟩ := h
  exact ⟨bs₁, bs₂, rfl, hname.1, hstates⟩

theorem entryText_entryBytes {e : Entry} (hid : e.1.length < 2 ^ 31)
    (hstates : e.2.length < 2 ^ 31 ∧ ∀ s ∈ e.2, s.length < 2 ^ 31) :
    EntryText (entryBytes e) (StackAssignment.cutName e) := by
  refine ⟨_, _, rfl, stringText_stringBytes hid, arrayText_arrayBytes hstates.1 ?_⟩
  exact fun s hs => arrayText_arrayBytes (hstates.2 s hs) fun _ _ => rfl

theorem shortEntryText_entryBytes {e : Entry} (hid : e.1.length < 2 ^ 31 - 1)
    (hstates : e.2.length < 2 ^ 31 ∧ ∀ s ∈ e.2, s.length < 2 ^ 31) :
    ShortEntryText (entryBytes e) (StackAssignment.cutName e) := by
  have hid' : e.1.length < 2 ^ 31 := by omega
  have hshort : (stringBytes e.1).length < 2 ^ 31 + 3 := by
    rw [stringBytes, List.length_append, length_int32Bytes]
    omega
  refine ⟨_, _, rfl, ⟨stringText_stringBytes hid', hshort⟩, arrayText_arrayBytes hstates.1 ?_⟩
  exact fun s hs => arrayText_arrayBytes (hstates.2 s hs) fun _ _ => rfl

theorem reads_nextEntry (scratch : Bytes) :
    Reads (StackAssignment.nextEntry scratch) EntryText := by
  apply ((reads_nextString scratch).bind fun name => reads_nextIntArrayArray.map fun states =>
    (⟨name, states⟩ : Entry)).congr
  intro bs e
  constructor
  · rintro ⟨bs₁, name, bs₂, rfl, hname, states, hstates, rfl⟩
    exact ⟨bs₁, bs₂, rfl, hname, hstates⟩
  · rintro ⟨bs₁, bs₂, rfl, hname, hstates⟩
    exact ⟨bs₁, e.1, bs₂, rfl, hname, e.2, hstates, rfl⟩

theorem reads_deserialize (scratch : Bytes) (a : StackAssignment) :
    Reads (a.deserialize scratch) fun bs b => ∃ entries, ArrayText EntryText bs entries ∧
      b = entries.foldl (fun a each => a.setAssignment each.1 each.2) a := by
  apply (reads_nextInt32.bind fun count => (reads_nextEntry scratch).loop
    (fun (a : StackAssignment) each => a.setAssignment each.1 each.2) count.toInt.toNat a).congr
  intro bs b
  constructor
  · rintro ⟨_, count, rest, rfl, rfl, entries, hlen, ht, rfl⟩
    exact ⟨entries, ⟨count, rest, rfl, hlen, ht⟩, rfl⟩
  · rintro ⟨entries, ⟨count, rest, rfl, hlen, ht⟩, rfl⟩
    exact ⟨_, count, rest, rfl, rfl, entries, hlen, ht, rfl⟩

theorem crashed_nextEntry (scratch : Bytes) (s : ByteInputStream) :
    (StackAssignment.nextEntry scratch s).2.crashed = (nextString scratch s).2.crashed :=
  safe_nextIntArrayArray (nextString scratch s).2 [] [] trivial rfl

theorem safe_nextEntry (scratch : Bytes) :
    Safe (StackAssignment.nextEntry scratch) ShortEntryText := by
  rintro s _ e ⟨bs₁, bs₂, rfl, hname, -⟩ hholds
  rw [crashed_nextEntry]
  exact safe_nextString scratch s bs₁ e.1 hname (holds_append.mp hholds).1

theorem safe_deserialize (scratch : Bytes) (a : StackAssignment) :
    Safe (a.deserialize scratch) fun bs _ => ∃ entries, ArrayText ShortEntryText bs entries := by
  rintro s _ b ⟨entries, count, rest, rfl, hlen, ht⟩ hholds
  have hloop := fun count : Int32 => Safe.loop (reads_nextEntry scratch)
    (fun _ _ h => ShortEntryText.entryText h) (safe_nextEntry scratch)
    (fun (a : StackAssignment) each => a.setAssignment each.1 each.2) count.toInt.toNat a
  have hread := Safe.bind reads_nextInt32 (fun _ _ h => h) (fun _ _ _ _ _ => rfl) hloop
  exact hread s _ b ⟨_, count, rest, rfl, rfl, entries, hlen, ht⟩ hholds

namespace StackAssignment

theorem cutName_of_not_mem {e : Entry} (h : 0 ∉ e.1) : cutName e = e := by
  rw [cutName, cString_of_not_mem h]

/-- Overwriting inserts rebuild a map from its entries in any order. -/
theorem find?_foldl_setAssignment {order : List Entry} (hnodup : (order.map Sigma.fst).Nodup)
    (a : StackAssignment) (k : NetworkId) :
    (order.foldl (fun a each => a.setAssignment each.1 each.2) a).find? k =
      (order.dlookup k).or (a.find? k) := by
  induction order generalizing a with
  | nil => rfl
  | cons e order ih =>
    obtain ⟨name, states⟩ := e
    obtain ⟨hfresh, hnodup⟩ := List.nodup_cons.mp hnodup
    rw [List.foldl_cons, ih hnodup, find?, setAssignment]
    rcases eq_or_ne k name with rfl | hne
    · have hnone : order.dlookup k = none := List.dlookup_eq_none.mpr hfresh
      rw [hnone, List.dlookup_cons_eq, AList.lookup_insert]
      rfl
    · rw [List.dlookup_cons_ne _ _ hne, AList.lookup_insert_ne hne]
      rfl

theorem equal_foldl_setAssignment {a : StackAssignment} {order : List Entry}
    (h : a.IsOrder order) :
    (order.foldl (fun a each => a.setAssignment each.1 each.2) empty).Equal a := by
  intro k
  have hkeys : order.NodupKeys := (List.perm_nodupKeys h).mpr a.assignments.nodupKeys
  have hnodup : (order.map Sigma.fst).Nodup := hkeys
  rw [find?_foldl_setAssignment hnodup, List.perm_dlookup k hkeys h]
  exact Option.or_none

/-- What is read of a table is what was written, but for names with a NUL. -/
theorem arrayText_serialize {a : StackAssignment} (ha : a.Sized) {order : List Entry}
    (h : a.IsOrder order) :
    ArrayText EntryText (serialize order .empty).data (order.map cutName) := by
  rw [data_serialize]
  apply arrayText_map
  · rw [h.length_eq]
    exact ha.size
  · intro e he
    have he' := h.mem_iff.mp he
    exact entryText_entryBytes (ha.id e he') (ha.states e he')

theorem deserialize_eq {a : StackAssignment} (ha : a.Sized) {order : List Entry}
    (h : a.IsOrder order) (rest scratch : Bytes) (outside : Int → Byte) :
    let content := (serialize order .empty).data
    let r := empty.deserialize scratch (ofContent (content ++ rest) outside)
    r.1 = (order.map cutName).foldl (fun a each => a.setAssignment each.1 each.2) empty ∧
      r.2.pos = content.length := by
  intro content
  dsimp only
  have hholds : Holds (contentMemory (content ++ rest) outside) 0 content :=
    (holds_contentMemory.mpr (List.prefix_append content rest)).2
  obtain ⟨hval, hpos⟩ := (reads_deserialize scratch empty).value
    (ofContent (content ++ rest) outside) content _
    ⟨order.map cutName, arrayText_serialize ha h, rfl⟩ hholds
  have hstart : (ofContent (content ++ rest) outside).pos = 0 := rfl
  rw [hstart, zero_add] at hpos
  exact ⟨hval, hpos⟩

theorem deserialize_serialize {a : StackAssignment} (ha : a.Encodable) {order : List Entry}
    (h : a.IsOrder order) (rest scratch : Bytes) (outside : Int → Byte) :
    let content := (serialize order .empty).data
    let r := empty.deserialize scratch (ofContent (content ++ rest) outside)
    r.1.Equal a ∧ r.2.pos = content.length := by
  have hread := deserialize_eq ha.sized h rest scratch outside
  dsimp only at hread ⊢
  obtain ⟨hval, hpos⟩ := hread
  have hnames : order.map cutName = order := by
    conv_rhs => rw [← List.map_id order]
    apply List.map_congr_left
    intro e he
    exact cutName_of_not_mem (ha.id e (h.mem_iff.mp he)).1
  refine ⟨?_, hpos⟩
  rw [hval, hnames]
  exact equal_foldl_setAssignment h

/-- Nothing kills the reader of a table whose ids can be read. -/
theorem deserialize_survives {a : StackAssignment} (ha : a.Sized) (hids : a.ShortIds)
    {order : List Entry} (h : a.IsOrder order) (rest scratch : Bytes) (outside : Int → Byte) :
    (empty.deserialize scratch
      (ofContent ((serialize order .empty).data ++ rest) outside)).2.crashed = false := by
  have hholds : Holds (contentMemory ((serialize order .empty).data ++ rest) outside) 0
      (serialize order .empty).data := (holds_contentMemory.mpr (List.prefix_append ..)).2
  have htext : ArrayText ShortEntryText (serialize order .empty).data (order.map cutName) := by
    rw [data_serialize]
    apply arrayText_map
    · rw [h.length_eq]
      exact ha.size
    · intro e he
      have he' := h.mem_iff.mp he
      exact shortEntryText_entryBytes (hids e he') (ha.states e he')
  exact safe_deserialize scratch empty (ofContent _ outside) _ empty ⟨_, htext⟩ hholds

theorem assignment_encoding_round_trips :
    (∀ (a : StackAssignment) (order : List Entry) (rest scratch : Bytes) (outside : Int → Byte),
      a.Encodable → a.ShortIds → a.IsOrder order →
      let content := (serialize order .empty).data
      let r := empty.deserialize scratch (ofContent (content ++ rest) outside)
      r.1.Equal a ∧ r.2.pos = content.length ∧ r.2.crashed = false) ∧
    ∀ (a b : StackAssignment) (order order' : List Entry), a.Encodable → b.Encodable →
      a.IsOrder order → b.IsOrder order' →
      (serialize order .empty).data = (serialize order' .empty).data → a.Equal b := by
  constructor
  · intro a order rest scratch outside ha hids h
    obtain ⟨hback, hpos⟩ := deserialize_serialize ha h rest scratch outside
    exact ⟨hback, hpos, deserialize_survives ha.sized hids h rest scratch outside⟩
  · intro a b order order' ha hb h h' hsame k
    obtain ⟨hback, -⟩ := deserialize_serialize ha h [] [] fun _ => 0
    obtain ⟨hback', -⟩ := deserialize_serialize hb h' [] [] fun _ => 0
    rw [hsame] at hback
    rw [← hback k, ← hback' k]

/-- "A" has two jobs, one of them empty, and "B" has none. -/
def twoClients : StackAssignment := (empty.setAssignment idB []).setAssignment idA [[1, -1], []]

theorem twoClients_round_trip :
    let content := (serialize twoClients.assignments.entries.reverse .empty).data
    let r := empty.deserialize [] (ofContent (content ++ idC) fun _ => 0)
    r.1.Equal twoClients ∧ r.2.pos = content.length ∧ r.2.crashed = false := by
  have hencodable : twoClients.Encodable := by
    constructor
    · decide
    · decide
    · decide
  exact assignment_encoding_round_trips.1 twoClients _ idC [] _ hencodable (by decide)
    (List.reverse_perm _)

/-- The table with the one job of a client. -/
def oneJob (id : NetworkId) : StackAssignment := empty.setAssignment id []

theorem entries_oneJob (id : NetworkId) : (oneJob id).assignments.entries = [⟨id, []⟩] := by
  simp [oneJob, setAssignment, empty]

theorem isOrder_oneJob (id : NetworkId) : (oneJob id).IsOrder [⟨id, []⟩] := by
  rw [IsOrder, entries_oneJob]

theorem sized_oneJob {id : NetworkId} (hlen : id.length < 2 ^ 31) : (oneJob id).Sized := by
  constructor
  · simp [entries_oneJob]
  · simpa [entries_oneJob] using hlen
  · simp [entries_oneJob]

theorem find?_oneJob (id k : NetworkId) :
    (oneJob id).find? k = if k = id then some [] else none := by
  rw [find?, oneJob, setAssignment]
  split
  · rename_i h
    rw [h, AList.lookup_insert]
  · rename_i h
    rw [AList.lookup_insert_ne h]
    rfl

theorem crashed_loop_one (scratch : Bytes) (push : StackAssignment → Entry → StackAssignment)
    {n : Nat} (hn : n = 1) (s : ByteInputStream) :
    (loop (nextEntry scratch) push n empty s).2.crashed = (nextString scratch s).2.crashed := by
  subst hn
  exact crashed_nextEntry scratch s

theorem crashed_deserialize_oneJob {id : NetworkId} (hlen : id.length < 2 ^ 31)
    (hlong : ¬ id.length < 2 ^ 31 - 1) (rest scratch : Bytes) (outside : Int → Byte) :
    (empty.deserialize scratch (ofContent
      ((serialize [⟨id, []⟩] .empty).data ++ rest) outside)).2.crashed = true := by
  have hholds : Holds (ofContent ((serialize [⟨id, []⟩] .empty).data ++ rest) outside).memory
      (ofContent ((serialize [⟨id, []⟩] .empty).data ++ rest) outside).pos
      (serialize [⟨id, []⟩] .empty).data := (holds_contentMemory.mpr (List.prefix_append ..)).2
  generalize ofContent ((serialize [⟨id, []⟩] .empty).data ++ rest) outside = s at hholds ⊢
  rw [data_serialize, ByteOutputStream.empty, List.nil_append, arrayBytes, List.flatMap_singleton,
    entryBytes, stringBytes, List.append_assoc] at hholds
  obtain ⟨hcount, hrest⟩ := holds_append.mp hholds
  obtain ⟨hone, hpos⟩ := reads_nextInt32.value s _ _ rfl hcount
  rw [← hpos, ← reads_nextInt32.memory s] at hrest
  have hlength := (reads_nextInt32.value (nextInt32 s).2 _ _ rfl (holds_append.mp hrest).1).1
  have hsize := toInt_int32OfSize hlen
  have hbig : ¬ 0 ≤ (int32OfSize id.length + 1).toInt := by
    rw [allocate_iff (hsize.symm ▸ Int.natCast_nonneg _), hsize]
    omega
  have hn : (nextInt32 s).1.toInt.toNat = 1 := by
    rw [hone]
    rfl
  refine (crashed_loop_one scratch _ hn (nextInt32 s).2).trans ?_
  rw [crashed_nextString, hlength, decide_eq_false hbig]
  exact Bool.or_true _

theorem exists_id (n : Nat) : ∃ id : NetworkId, id.length = n ∧ 0 ∉ id :=
  ⟨List.replicate n 65, List.length_replicate, by simp [List.mem_replicate]⟩

/-- For an id of 2^31 - 1 bytes `NextString` asks for 2^31, as an `int`. -/
theorem longest_id_cannot_be_read :
    ¬ ∀ (a : StackAssignment) (order : List Entry) (rest scratch : Bytes) (outside : Int → Byte),
      a.Encodable → a.IsOrder order →
      let content := (serialize order .empty).data
      let r := empty.deserialize scratch (ofContent (content ++ rest) outside)
      r.1.Equal a ∧ r.2.pos = content.length ∧ r.2.crashed = false := by
  intro h
  obtain ⟨id, hlen, hnul⟩ := exists_id (2 ^ 31 - 1)
  have hsized := sized_oneJob (show id.length < 2 ^ 31 by omega)
  have hencodable : (oneJob id).Encodable := by
    refine ⟨hsized.size, fun e he => ⟨?_, hsized.id e he⟩, hsized.states⟩
    rw [entries_oneJob, List.mem_singleton] at he
    rwa [he]
  obtain ⟨-, -, hcrashed⟩ := h (oneJob id) _ [] [] (fun _ => 0) hencodable (isOrder_oneJob id)
  have hlt : id.length < 2 ^ 31 := by omega
  have hlong : ¬ id.length < 2 ^ 31 - 1 := by omega
  have hkilled := crashed_deserialize_oneJob hlt hlong [] [] fun _ => 0
  exact Bool.false_ne_true (hcrashed.symm.trans hkilled)

end StackAssignment

end ParLib.Wire
