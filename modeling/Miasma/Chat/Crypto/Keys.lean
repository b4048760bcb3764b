import Mathlib.Data.List.Nodup
import Miasma.Chat.Crypto.Envelope
import Miasma.Chat.Crypto.Ideal
import Miasma.Data.Outcome
import Miasma.Data.Recent

namespace Miasma.Chat

open Data UInt32 List

/-! Message keys: padding, the keys of one chain, and the keys `skip_until`
stores. -/

/-! Padding. -/

theorem stripPadding_zeros {count : Nat} : stripPadding (replicate count 0 ++ rest) = stripPadding rest := by
  induction count with
  | zero => rfl
  | succ count ih =>
    simp only [replicate_succ, cons_append, stripPadding, ↓reduceIte, ih]

variable {padded : Bytes}

theorem unpad_pad (fits : pad data = .ok padded) : unpad padded = .ok data := by
  obtain ⟨zeros, rfl, bucket⟩ := pad_ok fits
  have stripped : stripPadding (data ++ [0x80] ++ replicate zeros 0).reverse = some data.reverse := by
    rw [reverse_append, reverse_replicate, stripPadding_zeros]
    simp [stripPadding]
  rw [unpad, contains_iff_mem.mpr bucket, stripped]
  simp

/-! Chains. -/

def chainKey (S : Suite) (chain : S.Key) : Nat → S.Key
  | 0 => chain
  | n + 1 => (S.kdfChain (chainKey S chain n)).next

variable {S : Suite}

theorem chainKey_of_next : chainKey S (S.kdfChain chain).next n = chainKey S chain (n + 1) := by
  induction n with
  | zero => rfl
  | succ n ih => simp only [chainKey, ih]

def messageKey (S : Suite) (chain : S.Key) (n : Nat) : S.Key := (S.kdfChain (chainKey S chain n)).key

def messageNonce (S : Suite) (chain : S.Key) (n : Nat) : S.Nonce := (S.kdfChain (chainKey S chain n)).nonce

theorem Suite.Ideal.chain_of_messageKey (ideal : S.Ideal)
    (same : messageKey S chain n = messageKey S chain' n) : chain = chain' := by
  have keys : chainKey S chain n = chainKey S chain' n := ideal.kdfChain_key_injective same
  clear same
  induction n with
  | zero => exact keys
  | succ n ih => exact ih (ideal.kdfChain_next_injective keys)

variable {dh : B32} {layer' : Option S.Key}

theorem Suite.Ideal.openMsg_ok (ideal : S.Ideal) (opened : openMsg S (S.kdfChain chain').key nonce' aad'
      (S.aeadSeal (sealingKey S (S.kdfChain chain).key layer dh n) nonce aad padded)
      layer' dh n = .ok pt) : chain' = chain ∧ pt = padded := by
  have same_of_plain : ∀ {found}, S.aeadOpen (S.kdfChain chain').key nonce' aad'
      (S.aeadSeal (sealingKey S (S.kdfChain chain).key layer dh n) nonce aad padded) = some found →
      chain' = chain ∧ found = padded := by
    intro found plain
    obtain ⟨keys, -, -, texts⟩ := ideal.aeadSeal_distinct (ideal.aeadOpen_iff.mp plain)
    cases layer with
    | none => exact ⟨ideal.kdfChain_key_injective keys.symm, texts.symm⟩
    | some pq => exact absurd keys (ideal.layerKey_ne_key _ _ _ _ _)
  have same_of_layered : ∀ {pq found}, S.aeadOpen (S.layerKey (S.kdfChain chain').key pq dh n) nonce' aad'
        (S.aeadSeal (sealingKey S (S.kdfChain chain).key layer dh n) nonce aad padded) = some found →
      chain' = chain ∧ found = padded := by
    intro pq found layered
    obtain ⟨keys, -, -, texts⟩ := ideal.aeadSeal_distinct (ideal.aeadOpen_iff.mp layered)
    cases layer with
    | none => exact absurd keys.symm (ideal.layerKey_ne_key _ _ _ _ _)
    | some pq' =>
      exact ⟨ideal.kdfChain_key_injective (ideal.layerKey_distinct keys).1.symm, texts.symm⟩
  unfold openMsg at opened
  cases layer' with
  | none =>
    split at opened
    · rename_i plain
      cases opened
      exact same_of_plain plain
    · cases opened
  | some pq =>
    simp only at opened
    split at opened
    · rename_i layered
      cases opened
      exact same_of_layered layered
    · split at opened
      · rename_i plain
        cases opened
        exact same_of_plain plain
      · cases opened

/-- A message opens under its own key when the receiver's hybrid key is the
sender's, or the sender used none. -/
theorem Suite.Ideal.openMsg_seal (ideal : S.Ideal) (matching : layer = none ∨ layer' = layer) :
    openMsg S (S.kdfChain chain).key nonce aad
      (S.aeadSeal (sealingKey S (S.kdfChain chain).key layer dh n) nonce aad padded)
      layer' dh n = .ok padded := by
  have reopen : ∀ key, S.aeadOpen key nonce aad (S.aeadSeal key nonce aad padded) = some padded :=
    fun key => ideal.aeadOpen_iff.mpr rfl
  cases layer with
  | none =>
    cases layer' with
    | none => simp [openMsg, sealingKey, reopen]
    | some pq =>
      simp only [openMsg, sealingKey, reopen]
      split
      · rename_i found layered
        obtain ⟨keys, -, -, -⟩ := ideal.aeadSeal_distinct (ideal.aeadOpen_iff.mp layered)
        exact absurd keys.symm (ideal.layerKey_ne_key _ _ _ _ _)
      · rfl
  | some pq =>
    cases matching with
    | inl none => cases none
    | inr same =>
      subst same
      simp [openMsg, sealingKey, reopen]

/-! Skipping. -/

theorem toNat_succ {value : UInt32} (below : value ≠ 0xffffffff) : (value + 1).toNat = value.toNat + 1 := by
  have bound := value.toNat_lt
  have different : value.toNat ≠ 4294967295 := fun same => below (UInt32.toNat_inj.mp same)
  rw [UInt32.toNat_add]
  simp only [reduceToNat]
  omega

theorem ne_top_of_room {value : UInt32} (room : value.toNat + 1 < 2 ^ 32) : value ≠ 0xffffffff := by
  intro top
  subst top
  exact absurd room (by decide)

def Skipped.BelongsTo {S : Suite} (kept : Skipped S) (chain : S.Key) : Prop :=
  kept.key = messageKey S chain kept.n.toNat ∧ kept.nonce = messageNonce S chain kept.n.toNat

namespace Session

variable {S : Suite}

/-- The keys the loop of `skip_until` stores, oldest first. -/
def keptKeys (dh : B32) : Nat → UInt32 → S.Key → List (Skipped S)
  | 0, _, _ => []
  | count + 1, nr, ck =>
    ⟨dh, nr, (S.kdfChain ck).key, (S.kdfChain ck).nonce⟩ ::
      keptKeys dh count (nr + 1) (S.kdfChain ck).next

theorem keepSkipped_recent :
    keepSkipped (recent maxStoredSkipped full) kept = recent maxStoredSkipped (full ++ [kept]) := by
  rw [recent_concat (by decide), keepSkipped]
  by_cases long : (recent maxStoredSkipped full).length ≥ maxStoredSkipped
  · have beyond : (recent maxStoredSkipped full ++ [kept]).length > maxStoredSkipped := by
      rw [length_append, length_singleton]
      omega
    have some : recent maxStoredSkipped full ≠ [] := by
      intro empty
      rw [empty] at long
      simp [maxStoredSkipped] at long
    rw [if_pos long, if_pos beyond, tail_append_of_ne_nil some]
  · have under : ¬ (recent maxStoredSkipped full ++ [kept]).length > maxStoredSkipped := by
      rw [length_append, length_singleton]
      omega
    rw [if_neg long, if_neg under]

theorem skipKeys_eq (dh : B32) (count : Nat) (s : Session S) (ck : S.Key)
    (full : List (Skipped S)) (table : s.skipped = recent maxStoredSkipped full) :
    skipKeys dh count s ck = { s with
      ckr := some (chainKey S ck count)
      nr := s.nr + ofNat count
      skipped := recent maxStoredSkipped (full ++ keptKeys dh count s.nr ck) } := by
  induction count generalizing s ck full with
  | zero =>
    simp_all [skipKeys, keptKeys, chainKey]
  | succ count ih =>
    have next := ih { s with
        skipped := keepSkipped s.skipped ⟨dh, s.nr, (S.kdfChain ck).key, (S.kdfChain ck).nonce⟩
        nr := s.nr + 1 } (S.kdfChain ck).next
      (full ++ [⟨dh, s.nr, (S.kdfChain ck).key, (S.kdfChain ck).nonce⟩])
      (by rw [table, keepSkipped_recent])
    have counted : s.nr + 1 + ofNat count = s.nr + ofNat (count + 1) := by
      rw [UInt32.ofNat_add, UInt32.add_comm (UInt32.ofNat count), ← UInt32.add_assoc]
      rfl
    rw [skipKeys, next, chainKey_of_next, counted, append_assoc]
    rfl

/-- What `skip_until` does when it succeeds: nothing, or it stores the keys up
to `bound`. -/
theorem skipUntil_ok {s next : Session S} (skipped : s.skipUntil bound = .ok next)
    (table : s.skipped.length ≤ maxStoredSkipped) :
    (next = s ∧ (s.ckr = none ∨ bound ≤ s.nr)) ∨ ∃ ck dh, s.ckr = some ck ∧ s.dhr = some dh ∧ s.nr < bound ∧
        bound.toNat - s.nr.toNat ≤ 256 ∧
        next = { s with
          ckr := some (chainKey S ck (bound.toNat - s.nr.toNat))
          nr := bound
          skipped := recent maxStoredSkipped (s.skipped ++ keptKeys dh (bound.toNat - s.nr.toNat) s.nr ck) } := by
  unfold skipUntil at skipped
  split at skipped
  · rename_i none
    cases skipped
    exact .inl ⟨rfl, .inl none⟩
  rename_i ck chain
  split at skipped
  · rename_i reached
    cases skipped
    exact .inl ⟨rfl, .inr reached⟩
  rename_i ahead
  have later : s.nr < bound := UInt32.not_le.mp ahead
  have distance : (bound - s.nr).toNat = bound.toNat - s.nr.toNat :=
    UInt32.toNat_sub_of_le _ _ (UInt32.le_of_lt later)
  split at skipped
  · cases skipped
  rename_i near
  have close : (bound - s.nr).toNat ≤ 256 := UInt32.le_iff_toNat_le.mp (UInt32.not_lt.mp near)
  rw [distance] at close
  split at skipped
  · cases skipped
  rename_i dh peer
  cases skipped
  have arrived : s.nr + ofNat (bound - s.nr).toNat = bound := by
    rw [UInt32.ofNat_toNat]
    rw [UInt32.add_comm]
    exact UInt32.sub_add_cancel ..
  refine .inr ⟨ck, dh, chain, peer, later, close, ?_⟩
  rw [skipKeys_eq dh _ s ck s.skipped (recent_of_length_le table).symm, arrived, distance]

theorem mem_keptKeys {count : Nat} {nr : UInt32} (room : nr.toNat + count < 2 ^ 32) :
    kept ∈ keptKeys dh count nr (chainKey S chain nr.toNat) ↔
      kept.dh = dh ∧ nr.toNat ≤ kept.n.toNat ∧ kept.n.toNat < nr.toNat + count ∧ kept.BelongsTo chain := by
  induction count generalizing nr with
  | zero =>
    simp only [keptKeys, not_mem_nil, false_iff, not_and]
    omega
  | succ count ih =>
    have below : nr.toNat + 1 < 2 ^ 32 := by omega
    have step := toNat_succ (ne_top_of_room below)
    have rest := ih (show (nr + 1).toNat + count < 2 ^ 32 by rw [step]; omega)
    rw [step] at rest
    simp only [chainKey] at rest
    rw [keptKeys, mem_cons, rest]
    constructor
    · intro found
      cases found with
      | inl head =>
        subst head
        exact ⟨rfl, Nat.le_refl _, by simp, rfl, rfl⟩
      | inr later =>
        obtain ⟨same, least, most, belongs⟩ := later
        exact ⟨same, by omega, by omega, belongs⟩
    · intro found
      obtain ⟨same, least, most, belongs⟩ := found
      by_cases first : kept.n.toNat = nr.toNat
      · left
        obtain ⟨key, nonce⟩ := belongs
        rw [first] at key nonce
        cases kept
        simp only [Skipped.mk.injEq]
        exact ⟨same, UInt32.toNat_inj.mp first, key, nonce⟩
      · exact .inr ⟨same, by omega, by omega, belongs⟩

theorem keptKeys_once {count : Nat} {nr : UInt32} (room : nr.toNat + count < 2 ^ 32) :
    ((keptKeys dh count nr (chainKey S chain nr.toNat)).map Skipped.position).Nodup := by
  induction count generalizing nr with
  | zero => simp [keptKeys]
  | succ count ih =>
    have below : nr.toNat + 1 < 2 ^ 32 := by omega
    have step := toNat_succ (ne_top_of_room below)
    have rest := ih (show (nr + 1).toNat + count < 2 ^ 32 by rw [step]; omega)
    have later : (keptKeys dh count (nr + 1) (S.kdfChain (chainKey S chain nr.toNat)).next) =
        keptKeys dh count (nr + 1) (chainKey S chain (nr + 1).toNat) := by
      rw [step, chainKey]
    rw [keptKeys, later, map_cons, nodup_cons]
    refine ⟨?_, rest⟩
    intro again
    obtain ⟨kept, inside, same⟩ := mem_map.mp again
    obtain ⟨-, least, -, -⟩ := (mem_keptKeys (by rw [step]; omega)).mp inside
    have numbers : kept.n = nr := congrArg Prod.snd same
    rw [numbers, step] at least
    omega

theorem length_keptKeys {count : Nat} {nr : UInt32} {ck : S.Key} :
    (keptKeys dh count nr ck).length = count := by
  induction count generalizing nr ck with
  | zero => rfl
  | succ count ih => rw [keptKeys, length_cons, ih]

end Session

end Miasma.Chat
