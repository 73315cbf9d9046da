import TibeeCompare.Db.Records
import TibeeCompare.Lib.SortedLists
import Std.Data.TreeMap.Lemmas

/-!
The keys of the database and the order that `KeyComparator` gives them.

The store is `leveldb`, taken as an ordered map under this comparator. All
tables share one key space: the comparator looks at the type byte first and, for
most types, at nothing that a key of another kind could imitate.
-/

namespace TibeeCompare.Db

open Codecs Std

def kFunctionNameCount : UInt8 := 0
def kStackCount : UInt8 := 1
def kFunctionNameIdType : UInt8 := 2
def kStackIdType : UInt8 := 3
def kFunctionNameReverseIdType : UInt8 := 5
def kStackReverseIdType : UInt8 := 6
def kExecutionKeyType : UInt8 := 7

/-- The keys that the database builds. -/
inductive Key
  | functionNameCount
  | stackCount
  | functionNameId (id : FunctionNameId)
  | stackId (id : StackId)
  | functionNameReverse (name : Bytes)
  | stackReverse (stack : Stack)
  | execution (id : FunctionNameId) (timestamp : UInt64)
deriving DecidableEq

namespace Key

/-- The bytes of a key. The keys with an identifier are the start of the packed
struct `Key`, an execution has the whole of it. -/
def bytes : Key → Bytes
  | functionNameCount => [kFunctionNameCount]
  | stackCount => [kStackCount]
  | functionNameId id => kFunctionNameIdType :: writeUInt32 id
  | stackId id => kStackIdType :: writeUInt32 id
  | functionNameReverse name => kFunctionNameReverseIdType :: writeString name
  | stackReverse stack => kStackReverseIdType :: writeStack stack
  | execution id timestamp => kExecutionKeyType :: (writeUInt32 id ++ writeUInt64 timestamp)

end Key

/-! ### The comparator -/

/-- The fields of the struct `Key` at the start of some bytes. -/
def keyType (a : Bytes) : ℕ := (a.headD 0).toNat

def keyId (a : Bytes) : ℕ := ofLE ((a.drop 1).take 4)

def keyTimestamp (a : Bytes) : ℕ := ofLE ((a.drop 5).take 8)

def memcmp (a b : Bytes) : Ordering := compare (a.map UInt8.toNat) (b.map UInt8.toNat)

/-- `KeyComparator::Compare`. -/
def keyCompare (a b : Bytes) : Ordering :=
  if keyType a < keyType b then .lt
  else if keyType b < keyType a then .gt
  else if keyType a ≤ kStackCount.toNat then .eq
  else if keyType a ≤ kStackReverseIdType.toNat then
    if a.length < b.length then .lt
    else if b.length < a.length then .gt
    else memcmp a b
  else if keyId a < keyId b then .lt
  else if keyId b < keyId a then .gt
  else if keyTimestamp a < keyTimestamp b then .lt
  else if keyTimestamp b < keyTimestamp a then .gt
  else .eq

/-- What the comparator looks at, in the order in which it does. -/
def sortKey (a : Bytes) : List ℕ :=
  keyType a ::
    if keyType a ≤ kStackCount.toNat then []
    else if keyType a ≤ kStackReverseIdType.toNat then a.length :: a.map UInt8.toNat
    else [keyId a, keyTimestamp a]

/-- A three-way comparison of numbers, as the source writes it. -/
theorem compare_then (m n : ℕ) (o : Ordering) :
    (compare m n).then o = if m < n then .lt else if n < m then .gt else o := by
  rcases Nat.lt_trichotomy m n with h | rfl | h
  · rw [Nat.compare_eq_lt.mpr h, if_pos h]
    rfl
  · rw [Nat.compare_eq_eq.mpr rfl, if_neg (Nat.lt_irrefl _), if_neg (Nat.lt_irrefl _)]
    rfl
  · rw [Nat.compare_eq_gt.mpr h, if_neg (Nat.lt_asymm h), if_pos h]
    rfl

theorem keyCompare_eq (a b : Bytes) : keyCompare a b = compare (sortKey a) (sortKey b) := by
  unfold sortKey
  rw [List.compare_cons_cons, compare_then, keyCompare]
  split
  · rfl
  split
  · rfl
  have htype : keyType b = keyType a := by omega
  rw [htype]
  split
  · rfl
  split
  · rw [List.compare_cons_cons, compare_then]
    rfl
  · rw [List.compare_cons_cons, List.compare_cons_cons, compare_then, compare_then]
    rfl

namespace Key

/-- The order of the keys in the store. -/
def compare (a b : Key) : Ordering := keyCompare a.bytes b.bytes

theorem compare_eq (a b : Key) : compare a b = compareOn (sortKey ∘ bytes) a b :=
  keyCompare_eq ..

@[simp] theorem keyId_cons (type : UInt8) (id : UInt32) (rest : Bytes) :
    keyId (type :: (writeUInt32 id ++ rest)) = id.toNat := by
  have htake : (writeUInt32 id ++ rest).take 4 = writeUInt32 id :=
    List.take_left' (length_writeUInt32 id)
  rw [keyId, List.drop_one, List.tail_cons, htake]
  exact ofLE_toLE_of_lt id.toNat_lt

@[simp] theorem keyTimestamp_cons (type : UInt8) (id : UInt32) (timestamp : UInt64) :
    keyTimestamp (type :: (writeUInt32 id ++ writeUInt64 timestamp)) = timestamp.toNat := by
  have hdrop : (type :: (writeUInt32 id ++ writeUInt64 timestamp)).drop 5 =
      writeUInt64 timestamp := by
    rw [List.drop_succ_cons]
    exact List.drop_left' (length_writeUInt32 id)
  rw [keyTimestamp, hdrop, List.take_of_length_le (length_writeUInt64 _).le]
  exact ofLE_toLE_of_lt timestamp.toNat_lt

theorem sortKey_execution (id : FunctionNameId) (timestamp : UInt64) :
    sortKey (execution id timestamp).bytes = [7, id.toNat, timestamp.toNat] := by
  rw [← keyId_cons kExecutionKeyType id (writeUInt64 timestamp),
    ← keyTimestamp_cons kExecutionKeyType id timestamp]
  rfl

theorem map_toNat_inj {a b : Bytes} : a.map UInt8.toNat = b.map UInt8.toNat ↔ a = b :=
  (List.map_injective_iff.mpr fun _ _ => UInt8.toNat_inj.mp).eq_iff

/-- No two keys are the same to the comparator: where it ignores the bytes of a
key, the type byte is all there is. -/
theorem sortKey_injective : Function.Injective (sortKey ∘ bytes) := by
  intro a b h
  simp only [Function.comp] at h
  -- different types differ in the first number, equal ones in the numbers behind it
  cases a <;> cases b <;>
    simp_all [sortKey, keyType, bytes, kFunctionNameCount, kStackCount, kFunctionNameIdType,
      kStackIdType, kFunctionNameReverseIdType, kStackReverseIdType, kExecutionKeyType,
      map_toNat_inj, UInt32.toNat_inj, UInt64.toNat_inj, -List.map_append]

instance : TransCmp compare := by
  have h : compare = compareOn (sortKey ∘ bytes) := funext₂ compare_eq
  rw [h]
  infer_instance

instance : LawfulEqCmp compare where
  eq_of_compare h := by
    rw [compare_eq] at h
    exact sortKey_injective (LawfulEqOrd.eq_of_compare h)

theorem compare_execution (id id' : FunctionNameId) (ts ts' : UInt64) :
    compare (execution id ts) (execution id' ts') =
      (Ord.compare id.toNat id'.toNat).then (Ord.compare ts.toNat ts'.toNat) := by
  rw [compare_eq, compareOn, Function.comp, Function.comp, sortKey_execution, sortKey_execution,
    List.compare_cons_cons, List.compare_cons_cons, List.compare_cons_cons, compare_then,
    if_neg (Nat.lt_irrefl _), if_neg (Nat.lt_irrefl _), List.compare_nil_nil, Ordering.then_eq]

theorem compare_execution_self (id : FunctionNameId) (ts ts' : UInt64) :
    compare (execution id ts) (execution id ts') = Ord.compare ts.toNat ts'.toNat := by
  rw [compare_execution, compare_then, if_neg (Nat.lt_irrefl _), if_neg (Nat.lt_irrefl _)]

/-- The keys between the first and the last one of an identifier are the keys of
the executions with this identifier. -/
theorem between_iff (id : FunctionNameId) (key : Key) :
    (compare key (execution id 0) ≠ .lt ∧ compare key (execution id (-1)) ≠ .gt) ↔
      ∃ timestamp, key = execution id timestamp := by
  constructor
  · rintro ⟨hfirst, hlast⟩
    have htype : ¬ keyType key.bytes < 7 := fun h => hfirst (if_pos h)
    cases key with
    | execution id' timestamp =>
        rw [compare_execution, compare_then] at hfirst hlast
        have heq : id'.toNat = id.toNat := by
          by_contra hne
          rcases Nat.lt_or_gt_of_ne hne with hlt | hgt
          · exact hfirst (if_pos hlt)
          · exact hlast ((if_neg (Nat.lt_asymm hgt)).trans (if_pos hgt))
        exact ⟨timestamp, by rw [UInt32.toNat_inj.mp heq]⟩
    | _ => exact absurd (Nat.le_of_ble_eq_true rfl) htype
  · rintro ⟨timestamp, rfl⟩
    have hlast : timestamp.toNat ≤ (-1 : UInt64).toNat :=
      Nat.le_of_lt_succ timestamp.toNat_lt
    rw [compare_execution_self, compare_execution_self]
    exact ⟨fun h => absurd (Nat.compare_eq_lt.mp h) (Nat.not_lt_zero _),
      fun h => absurd (Nat.compare_eq_gt.mp h) (Nat.not_lt.mpr hlast)⟩

end Key

/-! ### The store -/

/-- The contents of the `leveldb` database. -/
abbrev Store := TreeMap Key Bytes Key.compare

namespace Store

/-- The value of a key, if there is one. -/
def get (s : Store) (key : Key) : Option Bytes := s[key]?

def put (s : Store) (key : Key) (value : Bytes) : Store := s.insert key value

/-- `Write`, for a batch that holds these pairs. -/
def write (s : Store) (batch : List (Key × Bytes)) : Store :=
  batch.foldl (fun s entry => s.put entry.1 entry.2) s

/-- What an iterator passes that starts with `Seek(first)` and goes on while its
key is not greater than `last`. -/
def scan (s : Store) (first last : Key) : List (Key × Bytes) :=
  (s.toList.dropWhile fun entry => Key.compare entry.1 first == .lt).takeWhile
    fun entry => Key.compare entry.1 last != .gt

@[simp] theorem get_empty (key : Key) : get ∅ key = none := TreeMap.getElem?_emptyc

theorem get_put (s : Store) (key key' : Key) (value : Bytes) :
    (s.put key value).get key' = if key = key' then some value else s.get key' := by
  simp only [get, put, TreeMap.getElem?_insert, LawfulEqCmp.compare_eq_iff_eq]

/-- A record that is not greater than a bound is only behind such records. -/
theorem ordered_toList (s : Store) (last : Key) :
    s.toList.Pairwise fun a b =>
      (Key.compare b.1 last != .gt) = true → (Key.compare a.1 last != .gt) = true := by
  refine (TreeMap.ordered_keys_toList (t := s)).imp fun {a b} hab hb => ?_
  rw [bne_iff_ne, ne_eq, Ordering.ne_gt_iff_isLE] at hb ⊢
  exact TransCmp.isLE_trans (Ordering.isLE_of_eq_lt hab) hb

theorem scan_eq_filter (s : Store) (first last : Key) :
    s.scan first last = s.toList.filter fun entry =>
      Key.compare entry.1 last != .gt && !(Key.compare entry.1 first == .lt) := by
  have hfirst : s.toList.Pairwise fun a b =>
      (Key.compare b.1 first == .lt) = true → (Key.compare a.1 first == .lt) = true := by
    refine (TreeMap.ordered_keys_toList (t := s)).imp fun {a b} hab hb => ?_
    rw [beq_iff_eq] at hb ⊢
    exact TransCmp.lt_trans hab hb
  rw [scan, SortedLists.dropWhile_eq_filter hfirst,
    SortedLists.takeWhile_eq_filter ((s.ordered_toList last).filter _), List.filter_filter]

theorem mem_scan {s : Store} {first last key : Key} {value : Bytes} :
    (key, value) ∈ s.scan first last ↔
      s.get key = some value ∧ Key.compare key first ≠ .lt ∧ Key.compare key last ≠ .gt := by
  rw [scan_eq_filter]
  simp [get, and_comm]

/-- The records come in the order of their keys. -/
theorem scan_ordered (s : Store) (first last : Key) :
    (s.scan first last).Pairwise fun a b => Key.compare a.1 b.1 = .lt :=
  ((TreeMap.ordered_keys_toList (t := s)).sublist (List.dropWhile_sublist _)).sublist
    (List.takeWhile_sublist _)

end Store

end TibeeCompare.Db
