import Miasma.Data.Erasure
import Miasma.Dissolution.Share

namespace Miasma.Dissolution

open Data Checked List

/-! Splitting a ciphertext into shards and putting it together again (`crypto/rs.rs`). -/

def invalidParameters (dataShards totalShards : Nat) : MiasmaError :=
  .reedSolomon s!"invalid parameters: data_shards={dataShards}, total_shards={totalShards}"

/-- The length of a shard: at least one byte and even. -/
def shardLen (dataLen dataShards : Nat) : Nat :=
  let len := max ((dataLen + dataShards - 1) / dataShards) 1
  if len % 2 = 1 then len + 1 else len

theorem shardLen_pos (dataLen dataShards : Nat) : 0 < shardLen dataLen dataShards := by
  simp only [shardLen]
  split <;> omega

theorem shardLen_even (dataLen dataShards : Nat) : shardLen dataLen dataShards % 2 = 0 := by
  simp only [shardLen]
  split <;> omega

theorem le_shardLen_mul (some : 0 < dataShards) : dataLen ≤ shardLen dataLen dataShards * dataShards := by
  have ceil : dataLen ≤ (dataLen + dataShards - 1) / dataShards * dataShards := by
    have split := Nat.div_add_mod (dataLen + dataShards - 1) dataShards
    have below := Nat.mod_lt (dataLen + dataShards - 1) some
    rw [Nat.mul_comm] at split
    omega
  have longer : (dataLen + dataShards - 1) / dataShards ≤ shardLen dataLen dataShards := by
    simp only [shardLen]
    split <;> omega
  exact ceil.trans (Nat.mul_le_mul_right _ longer)

namespace Libraries

variable (L : Libraries)

def dataShardsOf (data : Bytes) (dataShards : Nat) : List Bytes :=
  let len := shardLen data.length dataShards
  chunks len dataShards (resize data (len * dataShards) 0)

def rsEncode (data : Bytes) (dataShards totalShards : Nat) : Checked MiasmaError (List Bytes) :=
  if totalShards < dataShards ∨ dataShards = 0 then .error (invalidParameters dataShards totalShards)
  else do
    let recoveryShards ← sub totalShards dataShards
    let len := shardLen data.length dataShards
    let output := dataShardsOf data dataShards
    -- The encoder cannot be asked for no recovery shards.
    if recoveryShards = 0 then return output
    else do
      let recovery ← ofExcept ((L.rsEncoder dataShards recoveryShards len output).mapError .reedSolomon)
      return output ++ recovery

variable (available : List (Nat × Bytes))

/-- The shards below `dataShards`, the first of each index. -/
def dataMap (dataShards : Nat) : List (Nat × Bytes) :=
  firstWins (available.filter (·.1 < dataShards))

/-- The shards from `dataShards` on, by their number among the recovery shards; those past
the last are dropped. -/
def recoveryMap (dataShards recoveryShards : Nat) : List (Nat × Bytes) :=
  firstWins (((available.filter (dataShards ≤ ·.1)).map
    (fun shard => (shard.1 - dataShards, shard.2))).filter (·.1 < recoveryShards))

/-- One data shard of the output: the one received, else the one restored. -/
def outputShard (data : List (Nat × Bytes)) (restored : Nat → Option Bytes) (i : Nat) :
    Checked MiasmaError Bytes :=
  match valueAt data i with
  | some shard => .ok shard
  | none =>
    match restored i with
    | some shard => .ok shard
    | none => .error (.reedSolomon s!"shard {i} missing from decoder output")

/-- The part of `rs_decode` after the checks.  The maps are walked in an order of their own
in the source; here it is the order of arrival. -/
def rsReassemble (dataShards recoveryShards len : Nat) : Checked MiasmaError Bytes :=
  let data := dataMap available dataShards
  let recovery := recoveryMap available dataShards recoveryShards
  if data.length = dataShards then do
    let output ← each (fun i => expect (valueAt data i)) (range dataShards)
    return output.flatten
  else do
    let missing ← sub dataShards data.length
    if recovery.length < missing then
      .error (.insufficientShares dataShards (data.length + recovery.length))
    else do
      let restored ← ofExcept
        ((L.rsDecoder dataShards recoveryShards len data (recovery.take missing)).mapError .reedSolomon)
      let output ← each (outputShard data restored) (range dataShards)
      return output.flatten

def rsDecode (dataShards totalShards originalLen : Nat) : Checked MiasmaError Bytes :=
  if totalShards < dataShards ∨ dataShards = 0 then .error (invalidParameters dataShards totalShards)
  else if available.isEmpty then .error (.insufficientShares dataShards 0)
  else do
    let recoveryShards ← sub totalShards dataShards
    let first ← expect available.head?
    let len := first.2.length
    if len = 0 ∨ len % 2 ≠ 0 then
      .error (.reedSolomon s!"invalid shard size: {len} bytes (must non-zero and multiple of 2)")
    else if ¬ available.all (·.2.length = len) then
      .error (.reedSolomon "shards have different lengths")
    else do
      let output ← L.rsReassemble available dataShards recoveryShards len
      return output.take originalLen

/-! ## Decoding never stops -/

theorem dataMap_below {available : List (Nat × Bytes)} (member : shard ∈ dataMap available dataShards) :
    shard.1 < dataShards := by
  simpa using (mem_filter.mp (mem_of_mem_firstWins member)).2

theorem outputShard_ne_panic : outputShard data restored i ≠ .panic := by
  simp only [outputShard]
  split
  · simp
  · split <;> simp

section

variable (available : List (Nat × Bytes))

theorem length_dataMap_le : (dataMap available dataShards).length ≤ dataShards :=
  length_le_of_below (distinct_firstWins _) fun _ => dataMap_below

theorem length_recoveryMap_le (dataShards recoveryShards : Nat) :
    (recoveryMap available dataShards recoveryShards).length ≤ recoveryShards := by
  refine length_le_of_below (distinct_firstWins _) fun shard member => ?_
  simpa using (mem_filter.mp (mem_of_mem_firstWins member)).2

theorem rsReassemble_ne_panic : L.rsReassemble available dataShards recoveryShards len ≠ .panic := by
  simp only [rsReassemble]
  split
  · rename_i full
    refine bind_ne_panic (each_ne_panic fun i inside => ?_) (by simp)
    have there := valueAt_isSome_of_full (distinct_firstWins _) (fun _ => dataMap_below) full (mem_range.mp inside)
    rw [Ne, expect_eq_panic_iff]
    exact Option.isSome_iff_ne_none.mp there
  · rw [sub_of_le (length_dataMap_le available), ok_bind]
    split
    · simp
    refine bind_ne_panic (by simp) fun restored _ => ?_
    refine bind_ne_panic (each_ne_panic fun i _ => ?_) (by simp)
    exact outputShard_ne_panic

theorem rsDecode_ne_panic (dataShards totalShards originalLen : Nat) :
    L.rsDecode available dataShards totalShards originalLen ≠ .panic := by
  simp only [rsDecode]
  split
  · simp
  split
  · simp
  rename_i nonempty
  obtain ⟨first, rest, rfl⟩ := exists_cons_of_ne_nil (by simpa using nonempty)
  rw [sub_of_le (by omega), ok_bind, head?_cons, expect_some, ok_bind]
  split
  · simp
  split
  · simp
  · exact bind_ne_panic (L.rsReassemble_ne_panic _) (by simp)

end

/-! ## What is encoded is decoded -/

/-- Where there are recovery shards, the code restores the missing data shards of a positive even length from as
many others. -/
def RsIdeal (dataShards totalShards : Nat) : Prop :=
  dataShards < totalShards → ∀ len, 0 < len → len % 2 = 0 →
    Restores (L.rsEncoder dataShards (totalShards - dataShards) len)
    (L.rsDecoder dataShards (totalShards - dataShards) len) (·.length = len)
    dataShards (totalShards - dataShards)

variable {L} {data : Bytes} {dataShards totalShards : Nat} {shards : List Bytes}

theorem length_of_mem_dataShardsOf (member : shard ∈ dataShardsOf data dataShards) :
    shard.length = shardLen data.length dataShards :=
  length_of_mem_chunks (by simp) member

theorem flatten_dataShardsOf (some : 0 < dataShards) :
    (dataShardsOf data dataShards).flatten.take data.length = data := by
  rw [dataShardsOf, flatten_chunks (by simp)]
  exact take_resize (le_shardLen_mul some) 0

@[simp] theorem length_dataShardsOf (data : Bytes) (dataShards : Nat) :
    (dataShardsOf data dataShards).length = dataShards := by
  simp [dataShardsOf]

/-- The shards of an encoding: the data shards and after them those of the encoder. -/
structure Encodes (L : Libraries) (data : Bytes) (dataShards totalShards : Nat)
    (recovery : List Bytes) : Prop where
  count : recovery.length = totalShards - dataShards
  even : ∀ shard ∈ recovery, shard.length = shardLen data.length dataShards
  encoded : totalShards ≠ dataShards → L.rsEncoder dataShards (totalShards - dataShards)
    (shardLen data.length dataShards) (dataShardsOf data dataShards) = .ok recovery

theorem rsEncode_eq (ideal : L.RsIdeal dataShards totalShards) (some : 0 < dataShards)
    (enough : dataShards ≤ totalShards) (data : Bytes) :
    ∃ recovery, L.rsEncode data dataShards totalShards = .ok (dataShardsOf data dataShards ++ recovery) ∧
      Encodes L data dataShards totalShards recovery := by
  have valid : ¬ (totalShards < dataShards ∨ dataShards = 0) := by omega
  simp only [rsEncode, if_neg valid, sub_of_le enough, ok_bind]
  by_cases plain : totalShards = dataShards
  · refine ⟨[], by simp [plain], by simp [plain], by simp, fun other => absurd plain other⟩
  obtain ⟨recovery, encoded, count, even⟩ :=
    (ideal (by omega) _ (shardLen_pos ..) (shardLen_even ..)).encodes (length_dataShardsOf data dataShards)
      fun shard => length_of_mem_dataShardsOf
  refine ⟨recovery, ?_, count, even, fun _ => encoded⟩
  rw [if_neg (by omega), encoded]
  rfl

theorem outputShard_eq {pieces : List Bytes}
    (genuine : ∀ pair ∈ present, pieces[pair.1]? = some pair.2) (inside : i < pieces.length)
    (others : (∀ pair ∈ present, pair.1 ≠ i) → restored i = pieces[i]?) :
    outputShard present restored i = .ok (pieces[i]?.getD []) := by
  have there : pieces[i]? = some pieces[i] := getElem?_eq_getElem inside
  simp only [outputShard]
  cases found : valueAt present i with
  | some shard => simp [genuine _ (mem_of_valueAt found)]
  | none =>
    have given := others (valueAt_eq_none_iff.mp found)
    simp [given, there]

theorem map_getElem?_range (pieces : List Bytes) :
    (range pieces.length).map (fun i => pieces[i]?.getD []) = pieces := by
  apply ext_getElem (by simp)
  intro i _ inside
  simp [getElem?_eq_getElem inside]

/-- Shards of one encoding, each index once, as many as there are data shards. -/
structure Chosen (data : Bytes) (dataShards : Nat) (recovery : List Bytes)
    (chosen : List (Nat × Bytes)) : Prop where
  distinct : Distinct Prod.fst chosen
  genuine : ∀ pair ∈ chosen, (dataShardsOf data dataShards ++ recovery)[pair.1]? = some pair.2
  count : chosen.length = dataShards

namespace Chosen

variable {recovery : List Bytes} {chosen : List (Nat × Bytes)}

section

variable (picked : Chosen data dataShards recovery chosen)
include picked

theorem below (member : pair ∈ chosen) : pair.1 < dataShards + recovery.length := by
  obtain ⟨inside, _⟩ := List.getElem?_eq_some_iff.mp (picked.genuine pair member)
  simpa using inside

theorem dataMap_eq : dataMap chosen dataShards = chosen.filter (·.1 < dataShards) :=
  firstWins_of_distinct (picked.distinct.filter)

theorem genuine_dataMap :
    ∀ pair ∈ dataMap chosen dataShards, (dataShardsOf data dataShards)[pair.1]? = some pair.2 := by
  intro pair member
  rw [picked.dataMap_eq] at member
  obtain ⟨there, low⟩ := mem_filter.mp member
  have given := picked.genuine pair there
  rwa [getElem?_append_left (by simpa using low)] at given

theorem recoveryMap_eq :
    recoveryMap chosen dataShards recovery.length = (chosen.filter (dataShards ≤ ·.1)).map
        (fun shard => (shard.1 - dataShards, shard.2)) := by
  have distinct : Distinct Prod.fst ((chosen.filter (dataShards ≤ ·.1)).map
      (fun shard => (shard.1 - dataShards, shard.2))) := by
    refine (picked.distinct.filter).image ?_
    intro shard there other here same
    have high : dataShards ≤ shard.1 := by simpa using (mem_filter.mp there).2
    have above : dataShards ≤ other.1 := by simpa using (mem_filter.mp here).2
    omega
  rw [recoveryMap, filter_eq_self.mpr, firstWins_of_distinct distinct]
  intro pair member
  obtain ⟨shard, there, rfl⟩ := mem_map.mp member
  have inside := picked.below (mem_of_mem_filter there)
  have high : dataShards ≤ shard.1 := by simpa using (mem_filter.mp there).2
  simp only [decide_eq_true_eq]
  omega

theorem genuine_recoveryMap :
    ∀ pair ∈ recoveryMap chosen dataShards recovery.length, recovery[pair.1]? = some pair.2 := by
  intro pair member
  rw [picked.recoveryMap_eq] at member
  obtain ⟨shard, there, rfl⟩ := mem_map.mp member
  obtain ⟨there, high⟩ := mem_filter.mp there
  have given := picked.genuine shard there
  rwa [getElem?_append_right (by simpa using high), length_dataShardsOf] at given

theorem expect_of_full (full : (dataMap chosen dataShards).length = dataShards) (inside : i < dataShards) :
    (expect (valueAt (dataMap chosen dataShards) i) : Checked MiasmaError Bytes) =
      .ok ((dataShardsOf data dataShards)[i]?.getD []) := by
  obtain ⟨shard, found⟩ := Option.isSome_iff_exists.mp
    (valueAt_isSome_of_full (distinct_firstWins _) (fun _ => dataMap_below) full inside)
  have given := picked.genuine_dataMap _ (mem_of_valueAt found)
  rw [dataMap, found, given]
  rfl

theorem length_maps :
    (dataMap chosen dataShards).length + (recoveryMap chosen dataShards recovery.length).length = dataShards := by
  have split : chosen.length = _ := length_eq_length_filter_add (fun shard => decide (shard.1 < dataShards))
  have high : chosen.filter (fun shard => !decide (shard.1 < dataShards)) =
      chosen.filter (dataShards ≤ ·.1) := by
    refine filter_congr fun shard _ => ?_
    rw [← decide_not, decide_eq_decide, Nat.not_lt]
  rw [high] at split
  rw [picked.dataMap_eq, picked.recoveryMap_eq, length_map, ← split, picked.count]

theorem rsReassemble_eq (ideal : L.RsIdeal dataShards totalShards)
    (encodes : Encodes L data dataShards totalShards recovery) :
    L.rsReassemble chosen dataShards (totalShards - dataShards) (shardLen data.length dataShards) =
      .ok (dataShardsOf data dataShards).flatten := by
  have genuine := picked.genuine_dataMap
  have together := picked.length_maps
  have all := map_getElem?_range (dataShardsOf data dataShards)
  rw [length_dataShardsOf] at all
  rw [← encodes.count]
  simp only [rsReassemble]
  split
  · rename_i full
    have output : each (fun i => expect (valueAt (dataMap chosen dataShards) i))
        (range dataShards) = (.ok _ : Checked MiasmaError _) :=
      each_eq_ok fun i inside => picked.expect_of_full full (mem_range.mp inside)
    rw [output, all]
    rfl
  have fewer : (dataMap chosen dataShards).length < dataShards := by
    omega
  have more : dataShards < totalShards := by
    have spares := length_recoveryMap_le chosen dataShards recovery.length
    have count := encodes.count
    omega
  obtain ⟨restored, decoded, others⟩ :=
    (ideal more _ (shardLen_pos ..) (shardLen_even ..)).decodes (length_dataShardsOf data dataShards)
      (fun shard => length_of_mem_dataShardsOf) (encodes.encoded more.ne') (distinct_firstWins _)
      genuine (distinct_firstWins _) picked.genuine_recoveryMap together fewer
  have missing : dataShards - (dataMap chosen dataShards).length =
      (recoveryMap chosen dataShards recovery.length).length := by omega
  have output : each (outputShard (dataMap chosen dataShards) restored) (range dataShards) = .ok _ :=
    each_eq_ok fun i inside =>
      have inside := mem_range.mp inside
      outputShard_eq genuine (by simpa using inside) (others i inside)
  rw [sub_of_le fewer.le, ok_bind, missing, if_neg (Nat.lt_irrefl _), take_length, encodes.count]
  simp only [dataMap, recoveryMap, encodes.count] at decoded output ⊢
  rw [decoded]
  simp [Except.mapError, output, all]

end

end Chosen

/-- Any `dataShards` shards of an encoding give the data back. -/
theorem rsDecode_eq (ideal : L.RsIdeal dataShards totalShards) (some : 0 < dataShards)
    (enough : dataShards ≤ totalShards) (encodes : Encodes L data dataShards totalShards recovery)
    (picked : Chosen data dataShards recovery chosen) :
    L.rsDecode chosen dataShards totalShards data.length = .ok data := by
  have valid : ¬ (totalShards < dataShards ∨ dataShards = 0) := by omega
  have lengths : ∀ pair ∈ chosen, pair.2.length = shardLen data.length dataShards := by
    intro pair member
    have given := mem_of_getElem? (picked.genuine pair member)
    rcases mem_append.mp given with here | there
    · exact length_of_mem_dataShardsOf here
    · exact encodes.even _ there
  obtain ⟨first, rest, rfl⟩ := exists_cons_of_length_pos (by rw [picked.count]; exact some)
  have len := lengths first (by simp)
  have positive := shardLen_pos data.length dataShards
  have even := shardLen_even data.length dataShards
  have same : ((first :: rest).all fun shard => decide (shard.2.length = first.2.length)) = true := by
    refine all_eq_true.mpr fun pair member => ?_
    rw [decide_eq_true_eq, len]
    exact lengths pair member
  simp only [rsDecode, if_neg valid, isEmpty_cons, sub_of_le enough, ok_bind, head?_cons, expect_some, same]
  rw [if_neg (by simp), if_neg (by omega), if_neg (by simp), len, picked.rsReassemble_eq ideal encodes]
  simp [flatten_dataShardsOf some]

end Libraries

end Miasma.Dissolution
