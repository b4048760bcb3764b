import Miasma.Chat.Group.History
import Miasma.Chat.Group.State

namespace Miasma.Chat.Group

open Data Descriptor Descriptor List Reads Status

/-! # Reading back what was written

The oldest descriptor of a stored chain has to pass the root checks. -/

variable {P : Primitives}

namespace Chain

theorem ext_items {first second : Chain} (same : first.items = second.items) : first = second := by
  cases first
  cases same
  rfl

def oldest (chain : Chain) : Descriptor := chain.items.head chain.nonempty

/-- The oldest kept descriptor is signed by one of its own admins, and does not
claim to be the first of its group while naming a predecessor. -/
def Restorable (chain : Chain) : Prop := chain.oldest.isAdmin chain.oldest.signer = true ∧
    ¬ (chain.oldest.epoch = 1 ∧ chain.oldest.prevHash ≠ ByteVec.fill 32 0)

instance (chain : Chain) : Decidable chain.Restorable := inferInstanceAs (Decidable (_ ∧ _))

variable {chain : Chain}

theorem items_append (room : chain.items.length < maxChain) :
    (chain.append d).items = chain.items ++ [d] := by
  have within : ¬ (chain.items ++ [d]).length > maxChain := by
    rw [length_append, length_singleton]
    omega
  simp only [append, if_neg within]

theorem pushEach_linked (linked : (chain.latest :: line).IsChain (Extends P))
    (room : chain.items.length + line.length ≤ maxChain) :
    ∃ next, chain.pushEach P line = (next, .ok ()) ∧ next.items = chain.items ++ line := by
  induction line generalizing chain with
  | nil => exact ⟨chain, rfl, by simp⟩
  | cons d rest ih =>
    rw [isChain_cons_cons] at linked
    rw [length_cons] at room
    have items : (chain.append d).items = chain.items ++ [d] := items_append (by omega)
    have latest : (chain.append d).latest = d := by
      apply Option.some.inj
      rw [← latest_eq_getLast?, items, getLast?_concat]
    obtain ⟨next, pushed, same⟩ := ih (latest.symm ▸ linked.2) (by rw [items, length_append, length_singleton]; omega)
    refine ⟨next, ?_, ?_⟩
    · simp only [pushEach, push_advances linked.1, pushed]
    · rw [same, items, append_assoc, singleton_append]

theorem fromItems_linked (items : chain.items = first :: rest) (linked : (first :: rest).IsChain (Extends P))
    (bounded : (first :: rest).length ≤ maxChain) (accepted : RootAccepted P first) :
    fromItems P chain.items = .ok chain := by
  have started : fromRoot P first = .ok ⟨[first], by simp⟩ := fromRoot_ok_iff.mpr ⟨accepted, rfl⟩
  let start : Chain := ⟨[first], by simp⟩
  have room : start.items.length + rest.length ≤ maxChain := by
    rw [length_cons, Nat.add_comm] at bounded
    exact bounded
  obtain ⟨next, pushed, same⟩ := pushEach_linked linked room
  have whole : next = chain := ext_items (by rw [same, items]; rfl)
  rw [items]
  simp only [fromItems, started, Bind.bind, Except.bind]
  rw [pushed, whole]

theorem restorable_of_fromItems (rebuilt : fromItems P chain.items = .ok other) : chain.Restorable := by
  have split : chain.items = chain.oldest :: chain.items.tail := (cons_head_tail chain.nonempty).symm
  rw [split] at rebuilt
  obtain ⟨start, started, -⟩ := bind_ok_iff.mp rebuilt
  have accepted := (fromRoot_ok_iff.mp started).1
  exact ⟨accepted.byAdmin, accepted.origin⟩

variable {root : Descriptor} {full : List Descriptor}

theorem History.items_valid (history : History P root chain full) :
    ∀ d ∈ chain.items, d.WellShaped P ∧ d.verifySignature P = .ok () := by
  obtain ⟨rest, rfl⟩ := head?_eq_some_iff.mp history.starts
  have valid := extends_valid history.linked
  intro d member
  have inside := recent_suffix.subset (history.kept ▸ member)
  rcases mem_cons.mp inside with rfl | later
  · exact ⟨history.rooted.shape, history.rooted.signed⟩
  · exact valid d later

theorem History.length_items (history : History P root chain full) : chain.items.length ≤ maxChain := by
  rw [history.kept, length_recent]
  exact Nat.min_le_left _ _

theorem History.fromItems_iff (history : History P root chain full) :
    fromItems P chain.items = .ok chain ↔ chain.Restorable := by
  have linked : chain.items.IsChain (Extends P) := by
    rw [history.kept]
    exact history.linked.suffix recent_suffix
  have valid := history.items_valid
  have bounded := history.length_items
  have split : chain.items = chain.oldest :: chain.items.tail := (cons_head_tail chain.nonempty).symm
  have oldestValid := valid chain.oldest (head_mem chain.nonempty)
  refine ⟨restorable_of_fromItems, fun restorable => ?_⟩
  exact fromItems_linked split (split ▸ linked) (split ▸ bounded)
    ⟨oldestValid.1, oldestValid.2, restorable.1, restorable.2⟩

end Chain

/-! ## Descriptors -/

theorem Role.fromCode_code : Role.fromCode role.code = some role := by
  cases role <;> rfl

theorem Member.reads_encode (hint : m.hint.utf8ByteSize ≤ maxHintBytes) : Reads Member.read m.encode m := by
  simp only [Member.encode, append_assoc]
  refine reads_arr.bind ((reads_u8 m.role.code).bind ?_)
  refine (lift Role.fromCode_code).bind ?_
  exact (reads_text8 hint (by decide)).map (fun hint => ({ id := m.id, role := m.role, hint } : Member))

variable {d : Descriptor}

theorem Descriptor.reads_encode (shape : d.WellShaped P) : Reads read d.encode d := by
  have populated := length_pos_iff.mpr shape.populated
  simp only [encode, signedPart, append_assoc]
  refine (reads_u8 _).bind (check rfl ?_)
  refine reads_arr.bind (reads_u32.bind (reads_u64.bind ?_))
  refine reads_arr.bind ?_
  refine (reads_text16 shape.named shape.nameBound (by decide)).bind ?_
  refine (reads_list8 populated shape.bounded (by decide) fun m member =>
    Member.reads_encode (shape.hints m member)).bind ?_
  exact reads_arr.bind (reads_arr.map (fun sig => ({ d with sig } : Descriptor)))

theorem Descriptor.decode_encode (shape : d.WellShaped P) (epoch : d.epoch ≠ 0) : decode P d.encode = .ok d := by
  simp only [decode, (reads_encode shape).complete, if_neg epoch, checkShape_ok_iff.mpr shape]
  rfl

/-! ## Reading nothing else -/

theorem Role.code_of_fromCode {code : UInt8} (read : fromCode code = some role) : role.code = code := by
  unfold fromCode at read
  split at read
  · cases read
    exact ‹code = 0›.symm
  split at read
  · cases read
    exact ‹code = 1›.symm
  · contradiction

theorem Member.spells : Spells Member.read [] Member.encode :=
  spells_arr.bind fun id => spells_u8.bind fun code => .lift fun role read => spells_text8.bind fun hint =>
    .pure (by rw [← Role.code_of_fromCode read]; rfl)

theorem Descriptor.spells : Spells read [] encode :=
  spells_u8.bind fun version => .check fun current => spells_arr.bind fun gid => spells_u32.bind fun epoch =>
    spells_u64.bind fun createdMs => spells_arr.bind fun prevHash => spells_text16.bind fun name =>
      (spells_list8 Member.spells).bind fun members => spells_arr.bind fun signer => spells_arr.bind fun sig =>
        .pure (by rw [current]; rfl)

theorem Descriptor.encode_of_decode (decoded : decode P bytes = .ok d) : d.encode = bytes := by
  unfold decode at decoded
  split at decoded
  · contradiction
  rename_i read
  obtain ⟨-, checked⟩ := ite_ok_iff.mp decoded
  obtain ⟨-, same⟩ := check_ok_iff.mp checked
  cases same
  exact spells.complete read

/-- What is encoded is read back, nothing else is read, and what two descriptors have
signed is the same only if they differ in nothing but the signature. -/
theorem descriptor_codec_is_exact (P : Primitives) :
    (∀ d : Descriptor, d.checkShape P = .ok () → d.epoch ≠ 0 → decode P d.encode = .ok d) ∧
      (∀ bytes d, decode P bytes = .ok d → d.encode = bytes) ∧
      ∀ d other : Descriptor, d.checkShape P = .ok () → d.epoch ≠ 0 → other.checkShape P = .ok () → other.epoch ≠ 0 →
        d.signedPart = other.signedPart → other = { d with sig := other.sig } := by
  refine ⟨fun d shape => decode_encode (checkShape_ok_iff.mp shape), fun _ _ => encode_of_decode, ?_⟩
  intro d other shape epoch shaped late same
  have shape := checkShape_ok_iff.mp shape
  have shaped := checkShape_ok_iff.mp shaped
  -- `d` with the other signature is encoded as `other`.
  have resigned : ({ d with sig := other.sig } : Descriptor).encode = other.encode :=
    congrArg (· ++ other.sig.toList) same
  have first := decode_encode (P := P) (d := { d with sig := other.sig }) { shape with } epoch
  rw [resigned, decode_encode shaped late] at first
  exact Except.ok.inj first

theorem resigned_descriptor_has_same_signedPart :
    let other := { Sample.root with sig := ByteVec.fill 64 1 }
    Sample.root.checkShape .checksum = .ok () ∧ other.checkShape .checksum = .ok () ∧
      Sample.root.epoch ≠ 0 ∧ other ≠ Sample.root ∧ other.signedPart = Sample.root.signedPart := by
  decide +kernel

theorem length_flatMap_le {values : List α} {write : α → List β}
    (each : ∀ value ∈ values, (write value).length ≤ bound) :
    (values.flatMap write).length ≤ values.length * bound := by
  induction values with
  | nil => simp
  | cons first rest ih =>
    simp only [forall_mem_cons] at each
    have tail := ih each.2
    simp only [flatMap_cons, length_append, length_cons, Nat.succ_mul]
    omega

theorem Descriptor.length_encode (shape : d.WellShaped P) : d.encode.length < 65536 := by
  have each : ∀ m ∈ d.members, m.encode.length ≤ 58 := by
    intro m member
    have hint := shape.hints m member
    simp only [Member.encode, putText8, putU8, length_append, m.id.length_toList, length_toBE, length_utf8]
    simp only [maxHintBytes] at hint
    omega
  have members := length_flatMap_le each
  have bounded := shape.bounded
  have name := shape.nameBound
  simp only [maxMembers, maxNameBytes] at bounded name
  simp only [encode, signedPart, putText16, putList8, putU8, putU16, putU32, putU64,
    length_append, length_toBE, length_utf8, d.gid.length_toList, d.prevHash.length_toList,
    d.signer.length_toList, d.sig.length_toList]
  omega

theorem Descriptor.reads_encodeItem (shape : d.WellShaped P) (epoch : d.epoch ≠ 0) :
    Reads (readItem P) d.encodeItem d := by
  have length : (UInt16.ofNat d.encode.length).toNat = d.encode.length := Nat.mod_eq_of_lt (length_encode shape)
  have decoded : (decode P d.encode).toOption = some d := by
    rw [decode_encode shape epoch]
    rfl
  refine reads_u16.bind ?_
  rw [length]
  exact reads_bytes.convert decoded

/-! ## Group states -/

theorem Status.reads_encode : Reads read status.encode status := by
  cases status with
  | pending invitedBy => exact (reads_u8 0).bind (reads_arr.map pending)
  | joined => exact (reads_u8 1).map (fun _ => joined)
  | left => exact (reads_u8 2).map (fun _ => left)
  | removed => exact (reads_u8 3).map (fun _ => removed)

theorem reads_encodeVector : Reads readVector (encodeVector entry) entry := by
  simp only [encodeVector, append_assoc]
  refine reads_arr.bind (reads_u64.bind ?_)
  rw [← append_nil (putList16 putU64 entry.2.above)]
  refine (reads_list16 entry.2.bounded (by decide) fun value _ => reads_u64).bind ?_
  exact (lift Applied.ofParts?_parts).map (fun vector => (entry.1, vector))

theorem PendingMsg.reads_encode (nonempty : 1 ≤ p.text.utf8ByteSize)
    (text : p.text.utf8ByteSize ≤ maxTextBytes) (dest : p.dest.length ≤ maxMembers) :
    Reads PendingMsg.read p.encode p := by
  simp only [PendingMsg.encode, append_assoc]
  refine reads_arr.bind (reads_u64.bind (reads_u32.bind ?_))
  refine reads_u64.bind ((reads_text16 nonempty text (by decide)).bind ?_)
  exact (reads_list8 (Nat.zero_le _) dest (by decide) fun id _ => reads_arr).map
    (fun dest => ({ p with dest } : PendingMsg))

theorem LedgerEntry.reads_encode : Reads LedgerEntry.read e.encode e := by
  simp only [LedgerEntry.encode, append_assoc]
  refine reads_arr.bind ((reads_u8 e.total).bind ((reads_u8 e.delivered).bind ?_))
  exact (reads_u8 e.failed).map (fun failed => ({ e with failed } : LedgerEntry))

theorem CtrlKind.fromCode_code : CtrlKind.fromCode kind.code = some kind := by
  cases kind <;> rfl

theorem Ctrl.reads_encode : Reads Ctrl.read c.encode c := by
  simp only [Ctrl.encode, append_assoc]
  refine reads_arr.bind ((reads_u8 c.kind.code).bind ?_)
  refine (lift CtrlKind.fromCode_code).bind ?_
  exact reads_u32.map (fun arg => ({ c with arg } : Ctrl))

theorem reads_encodeAddedBy : Reads readAddedBy (encodeAddedBy addedBy) addedBy := by
  cases addedBy with
  | none => exact (reads_u8 0).map (fun _ => none)
  | some id => exact (reads_u8 1).bind (reads_arr.map some)

theorem HandOver.reads_encode : Reads HandOver.read h.encode h :=
  reads_arr.bind (reads_u32.map (fun epoch => ({ h with epoch } : HandOver)))

/-- What every operation of the engine keeps: the chain has a history, and the
lists are within the bounds that `decode` checks. -/
structure GroupState.Storable (P : Primitives) (s : GroupState) : Prop where
  rooted : ∃ root full, Chain.History P root s.chain full
  epochs : ∀ d ∈ s.chain.items, d.epoch ≠ 0
  vectors : s.vectors.entries.length ≤ maxVectors
  pending : s.pending.length ≤ maxPending
  texts : ∀ p ∈ s.pending, 1 ≤ p.text.utf8ByteSize ∧ p.text.utf8ByteSize ≤ maxTextBytes
  dests : ∀ p ∈ s.pending, p.dest.length ≤ maxMembers
  ledger : s.ledger.length ≤ maxLedger
  ctrl : s.ctrl.length ≤ maxCtrl
  confirmed : s.confirmed.length ≤ maxMembers
  handed : s.handed.length ≤ maxHanded

namespace GroupState

variable {s : GroupState}

theorem Storable.reads_items (storable : Storable P s) : Reads (Reader.list8 1 maxChain (readItem P))
      (putList8 encodeItem s.chain.items) s.chain.items := by
  obtain ⟨root, full, history⟩ := storable.rooted
  have populated := length_pos_iff.mpr s.chain.nonempty
  exact reads_list8 populated history.length_items (by decide) fun d member =>
    reads_encodeItem (history.items_valid d member).1 (storable.epochs d member)

theorem Storable.decode_encode (storable : Storable P s) (restorable : s.chain.Restorable) :
    decode P s.encode = some s := by
  obtain ⟨root, full, history⟩ := storable.rooted
  have rebuilt : (Chain.fromItems P s.chain.items).toOption = some s.chain := by
    rw [history.fromItems_iff.mpr restorable]
    rfl
  refine complete ?_
  simp only [encode, append_assoc]
  refine (reads_u8 stateVersion).bind (check (.inl rfl) ?_)
  refine reads_encode.bind (reads_u64.bind ?_)
  refine reads_u64.bind (reads_u64.bind (reads_u64.bind ?_))
  refine storable.reads_items.bind ?_
  refine (lift rebuilt).bind ?_
  refine (reads_list16 storable.vectors (by decide) fun entry _ => reads_encodeVector).bind ?_
  refine (reads_list16 storable.pending (by decide) fun p member => PendingMsg.reads_encode
    (storable.texts p member).1 (storable.texts p member).2 (storable.dests p member)).bind ?_
  refine (reads_list16 storable.ledger (by decide) fun e _ => LedgerEntry.reads_encode).bind ?_
  refine (reads_list16 storable.ctrl (by decide) fun c _ => Ctrl.reads_encode).bind ?_
  refine bind reads_encodeAddedBy ?_
  refine bind (reads_list8 (Nat.zero_le _) storable.confirmed (by decide) fun id _ => reads_arr) ?_
  rw [SortedMap.ofList_entries]
  exact (reads_list16 storable.handed (by decide) fun h _ => HandOver.reads_encode).map
    (fun handed => ({ s with handed } : GroupState))

theorem Storable.decode_refused (storable : Storable P s) (lost : ¬ s.chain.Restorable) :
    decode P s.encode = none := by
  have refused : (Chain.fromItems P s.chain.items).toOption = none := by
    cases rebuilt : Chain.fromItems P s.chain.items with
    | error => rfl
    | ok => exact absurd (Chain.restorable_of_fromItems rebuilt) lost
  refine Fails.complete ?_
  simp only [encode, append_assoc]
  refine (reads_u8 stateVersion).bindFails (Fails.check (.inl rfl) ?_)
  refine reads_encode.bindFails (reads_u64.bindFails ?_)
  refine reads_u64.bindFails (reads_u64.bindFails ?_)
  refine reads_u64.bindFails (storable.reads_items.bindFails ?_)
  rw [refused]
  exact fails_lift

theorem Storable.decode_encode_iff (storable : Storable P s) : decode P s.encode = some s ↔ s.chain.Restorable := by
  refine ⟨fun decoded => ?_, storable.decode_encode⟩
  by_contra lost
  rw [storable.decode_refused lost] at decoded
  contradiction

end GroupState

end Miasma.Chat.Group
