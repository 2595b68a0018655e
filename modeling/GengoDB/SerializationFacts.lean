/-
What the serializer writes is read back (`readProperty_writeProperty`), and
nothing shorter is read at all. Both come from two properties of readers
(`Codec.Reads`, `Wire.Stable`): what a type's reader reads, by induction on the
value, and that every reader is stable, by induction on the fuel.
-/
import GengoDB.Fallible
import GengoDB.Serialization

namespace GengoDB.Serialization

open Fallible List

open Codec (Byte Reads putLE)
open Wire (Reader Stable)

variable {classes : Classes} {keyEqual : KeyEqual} {v : Value} {t : Ty} {r : Reader Failure Value} {bs : List Byte}
  {fuel : ℕ}

/-! ## Markers and lengths -/

theorem pow_bytes (n : ℕ) : 2 ^ (8 * n) = 256 ^ n := by rw [pow_mul]; rfl

theorem reads_readMarker (m : Marker) : Reads readMarker (putMarker m) m.toNat := Wire.reads_word pastEnd m.isLt

theorem reads_readSize {n : ℕ} (h : n < 2 ^ 64) : Reads readSize (putSize n) n := Wire.reads_word pastEnd h

theorem reads_expect (m : Marker) (message : String) : Reads (expect m message) (putMarker m) () :=
  (reads_readMarker m).last (by rw [if_neg (by simp)]; exact .pure ())

theorem stable_expect (m : Marker) (message : String) : Stable pastEnd (expect m message) :=
  (Stable.word 2).bind fun _ => .ite (.throw _) (.pure _)

theorem reads_readNumbered (h : Reads r bs v) (propertyId : Marker) :
    Reads (readNumbered r propertyId) (putMarker propertyId ++ bs ++ putMarker propertyId) v := by
  exact (reads_expect _ _).bind (h.bind ((reads_expect _ _).ret fun _ => v))

theorem stable_readNumbered (h : Stable pastEnd r) (propertyId : Marker) : Stable pastEnd (readNumbered r propertyId) :=
  (stable_expect _ _).bind fun _ => h.bind fun _ => (stable_expect _ _).bind fun _ => .pure _

theorem reads_readHeld_empty (r : Reader Failure Value) : Reads (readHeld r) (putMarker notPresent) .empty :=
  (reads_readMarker notPresent).last (by rw [if_pos rfl]; exact .pure _)

theorem reads_readHeld (h : Reads r bs v) : Reads (readHeld r) (putMarker present ++ bs) (.holding v) :=
  (reads_readMarker present).bind (by rw [if_neg (by decide)]; exact h.ret Value.holding)

theorem stable_readHeld (h : Stable pastEnd r) : Stable pastEnd (readHeld r) :=
  (Stable.word 2).bind fun _ => .ite (.pure _) (h.bind fun _ => .pure _)

/-! ## Lists of values -/

theorem writeValues_eq (vs : List Value) : writeValues classes vs = vs.flatMap (writeValue classes) := by
  induction vs with
  | nil => rfl
  | cons v vs ih => rw [writeValues, ih, flatMap_cons]

theorem writeProperties_eq : ∀ {ps : List (Marker × Ty)} {vs : List Value}, vs.length = ps.length →
    writeProperties classes ps vs = (vs.zip ps).flatMap fun x =>
      putMarker x.2.1 ++ writeValue classes x.1 ++ putMarker x.2.1
  | [], [], _ => rfl
  | p :: ps, v :: vs, h => by rw [writeProperties, zip_cons_cons, flatMap_cons, writeProperties_eq (by simpa using h)]

theorem foldl_append_singleton (vs acc : List Value) : vs.foldl (fun vs v => vs ++ [v]) acc = acc ++ vs := by
  induction vs generalizing acc with
  | nil => simp
  | cons v vs ih => simp [ih]

/-- Entries with different keys are all inserted. -/
theorem foldl_insertEntry {key : Ty} {entries acc : List Value}
    (h : (acc ++ entries).Pairwise fun e e' => keyEqual key e.first e'.first = false) :
    entries.foldl (insertEntry keyEqual key) acc = acc ++ entries := by
  induction entries generalizing acc with
  | nil => simp
  | cons e entries ih =>
    have hnew : insertEntry keyEqual key acc e = acc ++ [e] := by
      refine if_neg fun hany => ?_
      obtain ⟨e', he', hequal⟩ := any_eq_true.1 hany
      rw [(pairwise_append.1 h).2.2 e' he' e (by simp)] at hequal
      cases hequal
    rw [foldl_cons, hnew, ih (by simpa using h)]
    simp

/-! ## Values -/

theorem reads_bool (fuel : ℕ) (b : Bool) :
    Reads (read classes keyEqual (fuel + 1) .bool) (writeValue classes (.bool b)) (.bool b) := by
  have h := (Wire.reads_word pastEnd (n := 1) (x := b.toNat) (by cases b <;> decide)).ret fun b => Value.bool (b ≠ 0)
  cases b <;> exact h

theorem reads_scalar (fuel : ℕ) (k : Scalar) (bits : BitVec (8 * k.size_of)) :
    Reads (read classes keyEqual (fuel + 1) (.scalar k)) (writeValue classes (.scalar k bits)) (.scalar k bits) := by
  have h := (Wire.reads_word pastEnd (by rw [← pow_bytes]; exact bits.isLt)).ret
    fun x => Value.scalar k (BitVec.ofNat _ x)
  rwa [BitVec.ofNat_toNat, BitVec.setWidth_eq] at h

theorem reads_string (fuel : ℕ) {bytes : List Byte} (hlen : bytes.length < 2 ^ 64) :
    Reads (read classes keyEqual (fuel + 1) .string) (writeValue classes (.string bytes)) (.string bytes) := by
  exact (reads_readSize hlen).bind ((Wire.reads_take pastEnd bytes).ret Value.string)

theorem reads_vector {vs : List Value} (hlen : vs.length < 2 ^ 64)
    (h : ∀ v ∈ vs, Reads (read classes keyEqual fuel t) (writeValue classes v) v) :
    Reads (read classes keyEqual (fuel + 1) (.vector t)) (writeValue classes (.vector vs)) (.vector vs) := by
  rw [writeValue, writeValues_eq]
  have hall := Reads.foldN (fun vs v => vs ++ [v]) [] h
  rw [foldl_append_singleton] at hall
  exact (reads_readSize hlen).bind (hall.ret Value.vector)

theorem reads_unorderedMap {key value : Ty} {entries : List Value} (hlen : entries.length < 2 ^ 64)
    (hkeys : entries.Pairwise fun e e' => keyEqual key e.first e'.first = false)
    (h : ∀ e ∈ entries, Reads (read classes keyEqual fuel (.pair key value)) (writeValue classes e) e) :
    Reads (read classes keyEqual (fuel + 1) (.unorderedMap key value)) (writeValue classes (.unorderedMap entries))
      (.unorderedMap entries) := by
  rw [writeValue, writeValues_eq]
  have hall := Reads.foldN (insertEntry keyEqual key) [] h
  rw [foldl_insertEntry (by simpa using hkeys)] at hall
  exact (reads_readSize hlen).bind (hall.ret Value.unorderedMap)

theorem reads_object {c : ClassId} {fields : List Value} (hlen : fields.length = (classes c).length)
    (h : ∀ x ∈ fields.zip (classes c), Reads (read classes keyEqual fuel x.2.2) (writeValue classes x.1) x.1) :
    Reads (read classes keyEqual (fuel + 1) (.object c)) (writeValue classes (.object c fields))
      (.object c fields) := by
  rw [writeValue, writeProperties_eq hlen]
  have hnumbered : ∀ x ∈ fields.zip (classes c), Reads (readNumbered (read classes keyEqual fuel x.2.2) x.2.1)
      (putMarker x.2.1 ++ writeValue classes x.1 ++ putMarker x.2.1) x.1 :=
    fun x hx => reads_readNumbered (h x hx) x.2.1
  have hall := Reads.fields (r := fun p : Marker × Ty => readNumbered (read classes keyEqual fuel p.2) p.1)
    (w := fun p v => putMarker p.1 ++ writeValue classes v ++ putMarker p.1) hlen hnumbered
  exact (reads_expect _ _).bind (hall.bind ((reads_expect _ _).ret fun _ => Value.object c fields))

/-- **Values are read back**, with enough fuel. -/
theorem HasType.reads (h : HasType classes keyEqual v t) :
    ∃ n, ∀ fuel, n ≤ fuel → Reads (read classes keyEqual fuel t) (writeValue classes v) v := by
  induction h with
  | bool b => exact exists_fuel_succ ⟨0, fun fuel _ => reads_bool fuel b⟩
  | scalar k bits => exact exists_fuel_succ ⟨0, fun fuel _ => reads_scalar fuel k bits⟩
  | string hlen => exact exists_fuel_succ ⟨0, fun fuel _ => reads_string fuel hlen⟩
  | nullopt t | nullUnique c | nullShared c =>
    exact exists_fuel_succ ⟨0, fun fuel _ => by rw [writeValue]; exact reads_readHeld_empty _⟩
  | some _ ih | uniquePtr _ ih | sharedPtr _ ih =>
    obtain ⟨n, hn⟩ := ih
    exact exists_fuel_succ ⟨n, fun fuel hfuel => by rw [writeValue]; exact reads_readHeld (hn fuel hfuel)⟩
  | vector hlen _ ih =>
    obtain ⟨n, hn⟩ := exists_fuel_forall_mem ih
    exact exists_fuel_succ ⟨n, fun fuel hfuel => reads_vector hlen (hn fuel hfuel)⟩
  | pair _ _ iha ihb =>
    obtain ⟨n, hn⟩ := iha
    obtain ⟨m, hm⟩ := ihb
    refine exists_fuel_succ ⟨max n m, fun fuel hfuel => ?_⟩
    exact (hn fuel (by omega)).bind ((hm fuel (by omega)).ret (Value.pair _))
  | unorderedMap hlen _ hkeys ih =>
    obtain ⟨n, hn⟩ := exists_fuel_forall_mem ih
    exact exists_fuel_succ ⟨n, fun fuel hfuel => reads_unorderedMap hlen hkeys (hn fuel hfuel)⟩
  | object hlen _ ih =>
    obtain ⟨n, hn⟩ := exists_fuel_forall_mem ih
    exact exists_fuel_succ ⟨n, fun fuel hfuel => reads_object hlen (hn fuel hfuel)⟩

/-- **Every reader is stable.** -/
theorem stable_read (fuel : ℕ) (t : Ty) : Stable pastEnd (read classes keyEqual fuel t) := by
  induction fuel generalizing t with
  | zero => exact .throw _
  | succ fuel ih =>
    cases t with
    | bool => exact (Stable.word 1).bind fun _ => .pure _
    | scalar k => exact (Stable.word _).bind fun _ => .pure _
    | string => exact (Stable.word 8).bind fun _ => (Stable.take _).bind fun _ => .pure _
    | optional t => exact stable_readHeld (ih t)
    | vector t => exact (Stable.word 8).bind fun _ => (Stable.foldN _ (ih t) _ _).bind fun _ => .pure _
    | pair s t => exact (ih s).bind fun _ => (ih t).bind fun _ => .pure _
    | unorderedMap key value => exact (Stable.word 8).bind fun _ => (Stable.foldN _ (ih _) _ _).bind fun _ => .pure _
    | uniquePtr c | sharedPtr c => exact stable_readHeld (ih _)
    | object c =>
      have hfields := Stable.fields fun p : Marker × Ty => stable_readNumbered (ih p.2) p.1
      exact (stable_expect _ _).bind fun _ => (hfields _).bind fun _ => (stable_expect _ _).bind fun _ => .pure _

/-! ## Hexadecimal strings -/

theorem stoi_toHex : ∀ b : Byte, (stoi (toHex b)).toOption.map toByte = some b := by decide +kernel

theorem hexBytes_flatMap_toHex (bs : List Byte) : hexBytes (bs.flatMap toHex) = .ok bs := by
  induction bs with
  | nil => rfl
  | cons b bs ih =>
    have hb := stoi_toHex b
    have hpair : (b :: bs).flatMap toHex = hexDigits.getD (b.val >>> 4) '0' ::
      hexDigits.getD (b.val &&& 0xF) '0' :: bs.flatMap toHex := rfl
    have hhex : stoi [hexDigits.getD (b.val >>> 4) '0', hexDigits.getD (b.val &&& 0xF) '0'] = stoi (toHex b) := rfl
    rw [hpair, hexBytes, ih, hhex]
    cases hstoi : stoi (toHex b) with
    | error e =>
      rw [hstoi] at hb
      cases hb
    | ok i =>
      rw [hstoi] at hb
      have hi : toByte i = b := Option.some.inj hb
      rw [← hi]
      rfl

/-! ## Properties -/

/-- **The round trip.** A value of any type, written as a property, is read
back, directly or from its hexadecimal string, and exactly what was written is
consumed; on anything shorter the reader throws. -/
theorem readProperty_writeProperty (h : HasType classes keyEqual v t) (propertyId : Marker) : ∃ n, ∀ fuel, n ≤ fuel →
      (∀ rest, (readProperty classes keyEqual fuel t propertyId).run (writeProperty classes propertyId v ++ rest) =
        .ok (v, rest)) ∧ deserializeFromHexString classes keyEqual fuel t (serializeToHexString classes v) = .ok v ∧
      (∀ front, front <+: writeProperty classes propertyId v → front ≠ writeProperty classes propertyId v →
        (readProperty classes keyEqual fuel t propertyId).run front = .error (.thrown "Read past end of buffer")) ∧
      ∀ front, front <+: writeProperty classes 0 v → front ≠ writeProperty classes 0 v →
        deserializeFromHexString classes keyEqual fuel t (front.flatMap toHex) =
          .error (.thrown "Read past end of buffer") := by
  obtain ⟨n, hn⟩ := h.reads
  refine ⟨n, fun fuel hfuel => ?_⟩
  have hreads : ∀ propertyId, Reads (readProperty classes keyEqual fuel t propertyId)
      (writeProperty classes propertyId v) v := reads_readNumbered (hn fuel hfuel)
  have hshort : ∀ propertyId front, front <+: writeProperty classes propertyId v →
      front ≠ writeProperty classes propertyId v →
      (readProperty classes keyEqual fuel t propertyId).run front = .error pastEnd := fun propertyId front =>
    (stable_readNumbered (stable_read fuel t) propertyId).truncated (hreads propertyId)
  refine ⟨hreads propertyId, ?_, hshort propertyId, fun front hfront hne => ?_⟩
  · have hrun := hreads 0 []
    rw [append_nil] at hrun
    rw [deserializeFromHexString, serializeToHexString, hexBytes_flatMap_toHex, ok_bind, hrun]
    rfl
  · rw [deserializeFromHexString, hexBytes_flatMap_toHex, ok_bind, hshort 0 front hfront hne]
    rfl

/-- A class with a name, a map and a list of its own kind. -/
def nodeClass : Classes := fun _ =>
  [(1, .string), (2, .unorderedMap .string (.scalar .int)), (3, .vector (.uniquePtr 0))]

def equalStrings : KeyEqual := fun _ a b =>
  match a, b with
  | .string s, .string t => decide (s = t)
  | _, _ => false

/-- A node with one entry and two children, one of them null. -/
def sampleNode : Value :=
  .object 0 [.string [104, 105],
    .unorderedMap [.pair (.string [97]) (.scalar .int 7), .pair (.string []) (.scalar .int 8)],
    .vector [.holding (.object 0 [.string [], .unorderedMap [], .vector []]), .empty]]

theorem sampleNode_hasType : HasType nodeClass equalStrings sampleNode (.object 0) := by
  have hleaf : HasType nodeClass equalStrings (.object 0 [.string [], .unorderedMap [], .vector []]) (.object 0) := by
    refine .object rfl fun x hx => ?_
    simp only [nodeClass, zip_cons_cons, zip_nil_right, mem_cons, not_mem_nil, or_false] at hx
    obtain rfl | rfl | rfl := hx
    · exact .string (by decide)
    · exact .unorderedMap (by decide) (by simp) .nil
    · exact .vector (by decide) (by simp)
  refine .object rfl fun x hx => ?_
  simp only [nodeClass, zip_cons_cons, zip_nil_right, mem_cons, not_mem_nil, or_false] at hx
  obtain rfl | rfl | rfl := hx
  · exact .string (by decide)
  · refine .unorderedMap (by decide) (fun e he => ?_) (by simp [Value.first, equalStrings])
    simp only [mem_cons, not_mem_nil, or_false] at he
    obtain rfl | rfl := he
    · exact .pair (.string (by decide)) (.scalar _ _)
    · exact .pair (.string (by decide)) (.scalar _ _)
  · refine .vector (by decide) fun e he => ?_
    simp only [mem_cons, not_mem_nil, or_false] at he
    obtain rfl | rfl := he
    · exact .uniquePtr hleaf
    · exact .nullUnique 0

theorem readProperty_writeProperty_node : HasType nodeClass equalStrings sampleNode (.object 0) ∧
    ∃ n, (readProperty nodeClass equalStrings n (.object 0) 5).run (writeProperty nodeClass 5 sampleNode) =
      .ok (sampleNode, []) := by
  obtain ⟨n, hn⟩ := readProperty_writeProperty sampleNode_hasType 5
  have hrun := (hn n (Nat.le_refl n)).1 []
  exact ⟨sampleNode_hasType, n, hrun⟩

end GengoDB.Serialization
