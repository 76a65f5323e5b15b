import AssetQuery.Data.Basic
import AssetQuery.Proofs.Wire

/-!
# Bytes of primitives

What is read from the bytes of a primitive is what was written there.
-/

namespace AssetQuery.Primitive

theorem payload_append {p : Primitive} {front back : Bytes} (h : p.bytes = front ++ back) :
    p.payload front.length = .ok front := by
  rw [payload, h, if_pos (by simp), List.take_left]

theorem payload_of_length {p : Primitive} {count : Nat} (h : p.bytes.length = count) :
    p.payload count = .ok p.bytes := by
  subst h
  exact payload_append (List.append_nil _).symm

private theorem asBool_bool (b : Bool) : (bool b).asBool = .ok b := by
  cases b with
  | true => rfl
  | false => rfl

theorem asInt_of_bytes {p : Primitive} {n : Int64} {back : Bytes}
    (h : p.bytes = int64Bytes n ++ back) : p.asInt = .ok n := by
  have hpayload : p.payload 8 = .ok (int64Bytes n) := by
    rw [← length_littleEndian 8 n.toUInt64.toNat]
    exact payload_append h
  have hnumber : ofLittleEndian (int64Bytes n) = n.toUInt64.toNat :=
    ofLittleEndian_of_lt n.toUInt64.toNat_lt
  simp only [asInt, hpayload]
  show Except.ok (UInt64.ofNat (ofLittleEndian (int64Bytes n))).toInt64 = Except.ok n
  rw [hnumber, UInt64.ofNat_toNat, Int64.toInt64_toUInt64]

private theorem asInt_int (n : Int64) : (int n).asInt = .ok n := asInt_of_bytes
    (List.append_nil _).symm

private theorem asInt_score (n : Int64) : (score n).asInt = .ok n :=
  asInt_of_bytes (List.append_nil _).symm

private theorem asFloat_float (x : Double) : (float x).asFloat = .ok x := by
  have hpayload : (float x).payload 8 = .ok (littleEndian 8 x.bits.toNat) :=
    payload_of_length (length_littleEndian 8 _)
  have hnumber : ofLittleEndian (littleEndian 8 x.bits.toNat) = x.bits.toNat :=
    ofLittleEndian_of_lt x.bits.toNat_lt
  simp only [asFloat, hpayload]
  show Except.ok (Double.mk (UInt64.ofNat (ofLittleEndian (littleEndian 8 x.bits.toNat)))) = _
  rw [hnumber, UInt64.ofNat_toNat]

theorem asText_string (s : String) : (string s).asText = .ok s := by
  rw [asText, string, scalar, Utf8.decode_encode]

private theorem asText_resource (name id : String) : (resource name id).asText = .ok id := by
  rw [asText, resource, scalar, Utf8.decode_encode]

private theorem asTime_time (t : Instant) :
    (time t).asTime = if t.Regular then .ok t
      else .error (.invalidPayload .time (.timeOutOfRange t.seconds t.nanos)) := by
  obtain ⟨hlow, hhigh⟩ := t.inRange
  have hnanos := t.twoSeconds
  have hseconds : (Int64.ofInt t.seconds).toInt = t.seconds :=
    Int64.toInt_ofInt_of_le (by omega) (by omega)
  have hint : (time t).asInt = .ok (Int64.ofInt t.seconds) := asInt_of_bytes rfl
  have hlength : (int64Bytes (Int64.ofInt t.seconds)).length = 8 := length_littleEndian 8 _
  have hbytes : (((time t).bytes.drop 8).take 4) = littleEndian 4 t.nanos := by
    show ((int64Bytes (Int64.ofInt t.seconds) ++ littleEndian 4 t.nanos).drop 8).take 4 = _
    rw [← hlength, List.drop_left]
    exact List.take_of_length_le (Nat.le_of_eq (length_littleEndian 4 _))
  have htwelve : ¬(time t).bytes.length < 12 := by
    show ¬(int64Bytes (Int64.ofInt t.seconds) ++ littleEndian 4 t.nanos).length < 12
    rw [List.length_append, hlength, length_littleEndian]
    omega
  have hnumber : ofLittleEndian (littleEndian 4 t.nanos) = t.nanos :=
    ofLittleEndian_of_lt (by omega)
  simp only [asTime, hint, bind, Except.bind, if_neg htwelve, hseconds, hbytes, hnumber,
    Instant.of?_self]
  by_cases hregular : t.Regular
  · rw [if_pos hregular, if_pos hregular]
    rfl
  · rw [if_neg hregular, if_neg hregular]
    rfl

theorem asRef_scalar (t : Ty) (r : Ref) : (scalar t (int32Bytes r)).asRef = .ok r := by
  have hpayload : (scalar t (int32Bytes r)).payload 4 = .ok (int32Bytes r) :=
    payload_of_length (length_littleEndian 4 _)
  have hnumber : ofLittleEndian (int32Bytes r) = r.toUInt32.toNat :=
    ofLittleEndian_of_lt r.toUInt32.toNat_lt
  simp only [asRef, hpayload]
  show Except.ok (UInt32.ofNat (ofLittleEndian (int32Bytes r))).toInt32 = Except.ok r
  rw [hnumber, UInt32.ofNat_toNat, Int32.toInt32_toUInt32]

theorem scalar_int32Bytes_injective {t : Ty} {r q : Ref}
    (h : scalar t (int32Bytes r) = scalar t (int32Bytes q)) : r = q := by
  have hread := congrArg asRef h
  rw [asRef_scalar, asRef_scalar] at hread
  exact Except.ok.inj hread

theorem toValue_bool (b : Bool) : (bool b).toValue = .ok (.bool b) := by
  show (do return .bool (← (bool b).asBool) : Except SerialError Value) = _
  rw [asBool_bool]
  rfl

theorem toValue_int (n : Int64) : (int n).toValue = .ok (.int n) := by
  show (do return .int (← (int n).asInt) : Except SerialError Value) = _
  rw [asInt_int]
  rfl

theorem toValue_score (n : Int64) : (score n).toValue = .ok (.int n) := by
  show (do return .int (← (score n).asInt) : Except SerialError Value) = _
  rw [asInt_score]
  rfl

theorem toValue_float (x : Double) : (float x).toValue = .ok (.float x) := by
  show (do return .float (← (float x).asFloat) : Except SerialError Value) = _
  rw [asFloat_float]
  rfl

theorem toValue_string (s : String) : (string s).toValue = .ok (.string s) := by
  show (do return .string (← (string s).asText) : Except SerialError Value) = _
  rw [asText_string]
  rfl

theorem toValue_time (t : Instant) :
    (time t).toValue = if t.Regular then .ok (.time t)
      else .error (.invalidPayload .time (.timeOutOfRange t.seconds t.nanos)) := by
  show (do return .time (← (time t).asTime) : Except SerialError Value) = _
  rw [asTime_time]
  split
  · rfl
  · rfl

theorem toValue_ref (r : Ref) : (ref r).toValue = .ok (.ref r) := by
  show (do return .ref (← (ref r).asRef) : Except SerialError Value) = _
  rw [ref, asRef_scalar]
  rfl

theorem toValue_function (r : Ref) : (function r).toValue = .ok (.function r) := by
  show (do return .function (← (function r).asRef) : Except SerialError Value) = _
  rw [function, asRef_scalar]
  rfl

theorem toValue_resource (name id : String) :
    (resource name id).toValue = .ok (.resource name id) := by
  show (do return .resource name (← (resource name id).asText) : Except SerialError Value) = _
  rw [asText_resource]
  rfl

theorem toValue_array {elem : Ty} {items : List Primitive} {vs : List Value}
    (h : itemValues items = .ok vs) : (array elem items).toValue = .ok (.array vs) := by
  show (do return .array (← itemValues items) : Except SerialError Value) = _
  rw [h]
  rfl

theorem toValue_map {key value : Ty} {entries : List (String × Primitive)}
    {vs : List (String × Value)} (h : entryValues entries = .ok vs) :
    (map key value entries).toValue = .ok (.map vs) := by
  show (do return .map (← entryValues entries) : Except SerialError Value) = _
  rw [h]
  rfl

theorem itemValues_cons {p : Primitive} {rest : List Primitive} {v : Value} {vs : List Value}
    (hp : p.toValue = .ok v) (hrest : itemValues rest = .ok vs) :
    itemValues (p :: rest) = .ok (v :: vs) := by
  rw [itemValues, hp, hrest]
  rfl

theorem entryValues_cons {key : String} {p : Primitive} {rest : List (String × Primitive)}
    {v : Value} {vs : List (String × Value)} (hp : p.toValue = .ok v)
    (hrest : entryValues rest = .ok vs) :
    entryValues ((key, p) :: rest) = .ok ((key, v) :: vs) := by
  rw [entryValues, hp, hrest]
  rfl

end AssetQuery.Primitive
