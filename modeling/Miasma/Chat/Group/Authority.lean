import Miasma.Chat.Group.History

namespace Miasma.Chat.Group

open Data Group.Sample List Descriptor

/-! # Who can change a group

A descriptor is signed by an admin of its predecessor, or only takes its own signer out. -/

variable {P : Primitives} {before after : Descriptor} {keys : Set B32}

namespace Descriptor

def NoAdminIn (keys : Set B32) (d : Descriptor) : Prop := ∀ id ∈ keys, d.isAdmin id = false

/-- `after` is `before` without its signer, and otherwise the same list. -/
def OnlySignerLeft (before after : Descriptor) : Prop := after.name = before.name ∧
    after.members = before.members.filter (·.id != after.signer)

theorem OnlySignerLeft.isAdmin (left : OnlySignerLeft before after) {id : B32}
    (admin : after.isAdmin id = true) : before.isAdmin id = true := by
  by_cases same : id = after.signer
  · subst same
    have absent : after.member after.signer = none := by
      simp [member, left.2]
    simp [Descriptor.isAdmin, absent] at admin
  · have found : after.member id = before.member id := by
      unfold member
      rw [left.2, find?_filter]
      congr 1
      funext m
      by_cases hit : m.id = id <;> simp_all
    simpa only [Descriptor.isAdmin, found] using admin

theorem Extends.onlySignerLeft (step : Extends P before after)
    (powerless : NoAdminIn keys before) (inside : after.signer ∈ keys) :
    OnlySignerLeft before after := by
  rcases step.authority with admin | leave
  · rw [powerless after.signer inside] at admin
    contradiction
  · exact (isLeaveOf_iff.mp leave).2

/-- One step of the history keeps the set powerless, unless somebody outside
the set makes one of its keys an admin. -/
theorem Extends.noAdminIn (step : Extends P before after) (powerless : NoAdminIn keys before)
    (granted : after.signer ∉ keys → NoAdminIn keys after) : NoAdminIn keys after := by
  by_cases inside : after.signer ∈ keys
  · intro id member
    have left := step.onlySignerLeft powerless inside
    by_contra admin
    have earlier := left.isAdmin (by simpa using admin)
    rw [powerless id member] at earlier
    contradiction
  · exact granted inside

end Descriptor

open Descriptor

variable {rest : List Descriptor}

theorem onlySignerLeft_of_isChain {root : Descriptor}
    (linked : (root :: rest).IsChain (Extends P)) (powerless : NoAdminIn keys root)
    (granted : ∀ d ∈ rest, d.signer ∉ keys → NoAdminIn keys d) :
    (root :: rest).IsChain (fun before after => after.signer ∈ keys → OnlySignerLeft before after) := by
  induction rest generalizing root with
  | nil => exact isChain_singleton root
  | cons d rest ih =>
    rw [isChain_cons_cons] at linked ⊢
    have still := linked.1.noAdminIn powerless (granted d mem_cons_self)
    exact ⟨linked.1.onlySignerLeft powerless,
      ih linked.2 still (fun e member => granted e (mem_cons_of_mem d member))⟩

theorem members_of_only_leaves {root newest : Descriptor} (leaves : (root :: rest).IsChain
      (fun before after => after.signer ∈ keys → OnlySignerLeft before after))
    (inside : ∀ d ∈ rest, d.signer ∈ keys) (last : (root :: rest).getLast? = some newest) :
    newest.name = root.name ∧ ∃ gone : List B32, (∀ id ∈ gone, id ∈ keys) ∧
      newest.members = root.members.filter (·.id ∉ gone) := by
  induction rest generalizing root with
  | nil =>
    cases last
    exact ⟨rfl, [], by simp, by simp⟩
  | cons d rest ih =>
    rw [isChain_cons_cons] at leaves
    have left := leaves.1 (inside d mem_cons_self)
    obtain ⟨name, gone, within, members⟩ := ih leaves.2 (fun e member => inside e (mem_cons_of_mem d member)) last
    refine ⟨name.trans left.1, d.signer :: gone, ?_, ?_⟩
    · simp only [forall_mem_cons]
      exact ⟨inside d mem_cons_self, within⟩
    rw [members, left.2, filter_filter]
    congr 1
    funext m
    by_cases same : m.id = d.signer <;> simp [same]

/-- Whatever a chain is offered, the descriptors it keeps form a valid line from
the root on.  A set of keys that nobody made an admin can only take its own keys
out; when every valid signature is one of the set, the newest list is the root's
without some keys of the set. -/
theorem group_authority (P : Primitives) (root : Descriptor) (chain : Chain)
    (started : Chain.fromRoot P root = .ok chain) (offered : List Descriptor) :
    ∃ full, full.head? = some root ∧ (∀ d ∈ full, d = root ∨ d ∈ offered) ∧
      (chain.offerEach P offered).items <:+ full ∧
      (chain.offerEach P offered).items.length ≤ maxChain ∧
      root.isAdmin root.signer = true ∧ root.verifySignature P = .ok () ∧
      full.IsChain (Extends P) ∧ (∀ d ∈ full, d.WellShaped P) ∧
      ∀ keys : Set B32, NoAdminIn keys root →
        ((∀ d ∈ offered, d.verifySignature P = .ok () → d.signer ∉ keys → NoAdminIn keys d) →
          full.IsChain (fun before after => after.signer ∈ keys → OnlySignerLeft before after)) ∧
        ((∀ d ∈ offered, d.verifySignature P = .ok () → d.signer ∈ keys) →
          (chain.offerEach P offered).latest.name = root.name ∧
          ∃ gone : List B32, (∀ id ∈ gone, id ∈ keys) ∧ (chain.offerEach P offered).latest.members =
              root.members.filter (·.id ∉ gone)) := by
  obtain ⟨full, history, members⟩ := (Chain.history_fromRoot started).offered offered
  have origin : ∀ d ∈ full, d = root ∨ d ∈ offered := by
    intro d member
    simpa using members d member
  have rooted := history.rooted
  cases full with
  | nil => exact absurd rfl history.ne_nil
  | cons first rest =>
    have same : first = root := by simpa using history.starts
    subst same
    have linked := history.linked
    have fresh : ∀ d ∈ rest, d ∈ offered := by
      intro d member
      have later := rel_of_pairwise_cons (Chain.extends_pairwise linked) member
      rcases origin d (mem_cons_of_mem first member) with rfl | offered
      · exact absurd later (Nat.lt_irrefl _)
      · exact offered
    have valid := Chain.extends_valid linked
    have granted : ∀ keys : Set B32,
        (∀ d ∈ offered, d.verifySignature P = .ok () → d.signer ∉ keys → NoAdminIn keys d) →
        ∀ d ∈ rest, d.signer ∉ keys → NoAdminIn keys d := by
      intro keys outside d member
      exact outside d (fresh d member) (valid d member).2
    refine ⟨first :: rest, rfl, origin, ?_, ?_, rooted.byAdmin, rooted.signed, linked, ?_, ?_⟩
    · rw [history.kept]
      exact recent_suffix
    · rw [history.kept, length_recent]
      exact Nat.min_le_left _ _
    · simp only [forall_mem_cons]
      exact ⟨rooted.shape, fun d member => (valid d member).1⟩
    intro keys powerless
    refine ⟨fun outside => onlySignerLeft_of_isChain linked powerless (granted keys outside), ?_⟩
    intro inside
    have leaves := onlySignerLeft_of_isChain linked powerless
      (fun d member out => absurd (inside d (fresh d member) (valid d member).2) out)
    exact members_of_only_leaves leaves
      (fun d member => inside d (fresh d member) (valid d member).2) history.newest

/-- A guest that tries to make itself an admin and then leaves. -/
def Sample.guestChanges : List Descriptor := [change root "team" [⟨guest, .admin, ""⟩] guest,
    change root "team" [⟨admin, .admin, ""⟩] guest]

theorem group_authority_guest : ∃ chain, Chain.fromRoot .checksum root = .ok chain ∧
      (chain.offerEach .checksum guestChanges).latest.members.length = 1 ∧
      ∃ gone : List B32, (∀ id ∈ gone, id = guest) ∧
        (chain.offerEach .checksum guestChanges).latest.members =
          root.members.filter (·.id ∉ gone) := by
  have started : Chain.fromRoot .checksum root = .ok ⟨[root], by simp⟩ := by
    decide +kernel
  refine ⟨⟨[root], by simp⟩, started, by decide +kernel, ?_⟩
  obtain ⟨full, -, -, -, -, -, -, -, -, powerless⟩ := group_authority .checksum root _ started guestChanges
  have noAdmin : NoAdminIn {guest} root := by
    intro id member
    cases member
    decide +kernel
  have signers : ∀ d ∈ guestChanges, d.signer = guest := by decide +kernel
  exact ((powerless {guest} noAdmin).2 (fun d member _ => signers d member)).2

end Miasma.Chat.Group
