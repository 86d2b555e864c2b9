import Sketchlog.Mesh.Node
import Mathlib.Data.Prod.Lex

/-!
# Merging membership tables

An entry of the membership table says a standing: an incarnation and a status, in lexicographic
order, the worse status being the greater one. Merging a payload should join the standings of every
node, and then the order of payloads would not matter. It does not join in one case: an entry that
is suspect is not made dead at the same incarnation (`Blocked`). So payloads commute, and give the
join, unless a node is dead at its highest incarnation and someone else suspects it there
(`Conflict`).
-/

namespace Sketchlog.Mesh

open Imperative

/-- How bad a status is. -/
def Status.rank : Status → ℕ
  | .alive => 0
  | .suspect => 1
  | .dead => 2

theorem Status.rank_injective : Function.Injective Status.rank := by
  intro s t h
  cases s <;> cases t <;> first | rfl | cases h

instance : LinearOrder Status := LinearOrder.lift' Status.rank Status.rank_injective

/-! ## Standings

A member stands at an incarnation with a status. `accept` is the rule of the code; it is the maximum
except between suspect and dead at one incarnation, where the first one heard stays. -/

abbrev Standing := ℤ ×ₗ Status

def standingOf (incarnation : ℤ) (status : Status) : Standing := toLex (incarnation, status)

/-- What the code does not take over: dead, where it has suspect at the same incarnation. -/
def Blocked (x y : WithBot Standing) : Prop :=
  ∃ i, x = standingOf i .suspect ∧ y = standingOf i .dead

/-- What is known of a node after it is told `y`. -/
noncomputable def accept (x y : WithBot Standing) : WithBot Standing :=
  open Classical in if Blocked x y then x else x ⊔ y

/-- A node is dead at the highest incarnation known of it, the table does not have it yet, and it is
suspect at that incarnation in the table or in a payload. -/
def Conflict (l a b : WithBot Standing) : Prop :=
  ∃ i, l ⊔ a ⊔ b = standingOf i .dead ∧ l ≠ standingOf i .dead
    ∧ (l = standingOf i .suspect ∨ a = standingOf i .suspect ∨ b = standingOf i .suspect)

variable {x y l a b : WithBot Standing} {i j : ℤ}

theorem accept_of_blocked (h : Blocked x y) : accept x y = x := if_pos h

theorem accept_of_not_blocked (h : ¬ Blocked x y) : accept x y = x ⊔ y := if_neg h

theorem standingOf_inj {s t : Status} :
    (standingOf i s : WithBot Standing) = standingOf j t ↔ i = j ∧ s = t := by
  rw [WithBot.coe_inj, standingOf, standingOf, toLex_inj, Prod.mk.injEq]

theorem suspect_lt_dead (i : ℤ) : (standingOf i .suspect : WithBot Standing) < standingOf i .dead :=
  WithBot.coe_lt_coe.mpr (Prod.Lex.toLex_lt_toLex.mpr
    (.inr ⟨rfl, (by decide : Status.suspect < Status.dead)⟩))

/-- Nothing lies between suspect and dead. -/
theorem le_suspect_of_lt_dead (h : x < standingOf i .dead) : x ≤ standingOf i .suspect := by
  induction x with
  | bot => exact bot_le
  | coe x =>
    obtain ⟨⟨j, t⟩, rfl⟩ := toLex.surjective x
    rw [WithBot.coe_lt_coe] at h
    rw [WithBot.coe_le_coe]
    rcases Prod.Lex.toLex_lt_toLex.mp h with hj | ⟨hj, ht⟩
    · exact Prod.Lex.toLex_le_toLex.mpr (.inl hj)
    · refine Prod.Lex.toLex_le_toLex.mpr (.inr ⟨hj, ?_⟩)
      cases t with
      | alive =>
        show Status.alive ≤ Status.suspect
        decide
      | suspect => exact le_rfl
      | dead => exact absurd ht (lt_irrefl _)

/-- What is suspect stays suspect, whatever it is told at that incarnation. -/
theorem accept_suspect (h : y ≤ standingOf i .dead) :
    accept (standingOf i .suspect) y = standingOf i .suspect := by
  rcases eq_or_lt_of_le h with rfl | hlt
  · exact accept_of_blocked ⟨i, rfl, rfl⟩
  · rw [accept_of_not_blocked, sup_eq_left]
    · exact le_suspect_of_lt_dead hlt
    · rintro ⟨j, hx, rfl⟩
      rw [standingOf_inj] at hx
      rw [← hx.1] at hlt
      exact lt_irrefl _ hlt

/-- Without a conflict, two payloads are joined. -/
theorem accept_accept_of_not_conflict (h : ¬ Conflict l a b) : accept (accept l a) b = l ⊔ a ⊔ b := by
  by_cases hfirst : Blocked l a
  · -- the first payload is lost, and the second is above it
    obtain ⟨i, rfl, rfl⟩ := hfirst
    rw [accept_suspect le_rfl]
    have hle := (suspect_lt_dead i).le
    have hb : ¬ b ≤ standingOf i .dead := by
      intro hb
      refine h ⟨i, ?_, ?_, .inl rfl⟩
      · rw [sup_eq_right.mpr hle, sup_eq_left.mpr hb]
      · exact (suspect_lt_dead i).ne
    rw [accept_of_not_blocked, sup_eq_right.mpr hle, sup_eq_right.mpr (hle.trans (not_le.mp hb).le),
      sup_eq_right.mpr (not_le.mp hb).le]
    rintro ⟨j, hx, rfl⟩
    exact hb ((standingOf_inj.mp hx).1 ▸ le_rfl)
  · rw [accept_of_not_blocked hfirst]
    refine accept_of_not_blocked ?_
    rintro ⟨i, hx, rfl⟩
    -- the table or the first payload is suspect, and the second one is dead
    have hle := (suspect_lt_dead i).le
    have hsuspect : l = standingOf i .suspect ∨ a = standingOf i .suspect := by
      rcases max_choice l a with hmax | hmax
      · exact .inl (hmax.symm.trans hx)
      · exact .inr (hmax.symm.trans hx)
    refine h ⟨i, ?_, ?_, ?_⟩
    · rw [hx, sup_eq_right.mpr hle]
    · rintro rfl
      have hl : (standingOf i .dead : WithBot Standing) ≤ standingOf i .suspect := hx ▸ le_sup_left
      exact absurd hl (not_le.mpr (suspect_lt_dead i))
    · rcases hsuspect with hl | ha
      · exact .inl hl
      · exact .inr (.inl ha)

theorem conflict_symm (h : Conflict l a b) : Conflict l b a := by
  obtain ⟨i, hjoin, hl, hsuspect⟩ := h
  refine ⟨i, ?_, hl, ?_⟩
  · rw [sup_right_comm]
    exact hjoin
  · rcases hsuspect with h | h | h
    · exact .inl h
    · exact .inr (.inr h)
    · exact .inr (.inl h)

/-- In a conflict in which the table or the first payload is suspect, the node stays suspect. -/
theorem accept_accept_of_suspect (hjoin : l ⊔ a ⊔ b = standingOf i .dead) (hl : l ≠ standingOf i .dead)
    (hsuspect : l = standingOf i .suspect ∨ a = standingOf i .suspect) :
    accept (accept l a) b = standingOf i .suspect := by
  have hla : l ≤ standingOf i .dead := hjoin ▸ le_sup_left.trans le_sup_left
  have haj : a ≤ standingOf i .dead := hjoin ▸ le_sup_right.trans le_sup_left
  have hbj : b ≤ standingOf i .dead := hjoin ▸ le_sup_right
  have hx : accept l a = standingOf i .suspect := by
    rcases hsuspect with rfl | rfl
    · exact accept_suspect haj
    · rw [accept_of_not_blocked, sup_eq_right]
      · exact le_suspect_of_lt_dead (lt_of_le_of_ne hla hl)
      · rintro ⟨j, -, hj⟩
        cases (standingOf_inj.mp hj).2
  rw [hx]
  exact accept_suspect hbj

/-- **Two payloads.** They give the join in both orders exactly when there is no conflict. -/
theorem accept_comm_iff :
    (accept (accept l a) b = l ⊔ a ⊔ b ∧ accept (accept l b) a = l ⊔ a ⊔ b) ↔ ¬ Conflict l a b := by
  constructor
  · rintro ⟨hab, hba⟩ ⟨i, hjoin, hl, hsuspect⟩
    have hne := (suspect_lt_dead i).ne
    have hjoin' : l ⊔ b ⊔ a = standingOf i .dead := by
      rw [sup_right_comm]
      exact hjoin
    rcases hsuspect with h | h | h
    · exact hne ((accept_accept_of_suspect hjoin hl (.inl h)).symm.trans (hab.trans hjoin))
    · exact hne ((accept_accept_of_suspect hjoin hl (.inr h)).symm.trans (hab.trans hjoin))
    · exact hne ((accept_accept_of_suspect hjoin' hl (.inr h)).symm.trans (hba.trans hjoin))
  · intro h
    refine ⟨accept_accept_of_not_conflict h, ?_⟩
    rw [accept_accept_of_not_conflict fun hc => h (conflict_symm hc), sup_right_comm]

theorem sup_standingOf (i : ℤ) (s t : Status) :
    (standingOf i s ⊔ standingOf i t : WithBot Standing) = standingOf i (s ⊔ t) := by
  rcases le_total s t with h | h
  · rw [sup_eq_right.mpr h, sup_eq_right.mpr]
    exact WithBot.coe_le_coe.mpr (Prod.Lex.toLex_le_toLex.mpr (.inr ⟨rfl, h⟩))
  · rw [sup_eq_left.mpr h, sup_eq_left.mpr]
    exact WithBot.coe_le_coe.mpr (Prod.Lex.toLex_le_toLex.mpr (.inr ⟨rfl, h⟩))

/-- Two statuses at one incarnation: only what is alive gets worse. -/
theorem accept_standingOf (i : ℤ) (s t : Status) :
    accept (standingOf i s) (standingOf i t)
      = if s = .alive ∧ (t = .suspect ∨ t = .dead) then (standingOf i t : WithBot Standing)
        else standingOf i s := by
  by_cases hblocked : s = .suspect ∧ t = .dead
  · rw [hblocked.1, hblocked.2, accept_suspect le_rfl, if_neg (by decide)]
  · rw [accept_of_not_blocked, sup_standingOf]
    · cases s <;> cases t <;> first | rfl | exact absurd ⟨rfl, rfl⟩ hblocked
    · rintro ⟨j, hs, ht⟩
      exact hblocked ⟨(standingOf_inj.mp hs).2, (standingOf_inj.mp ht).2⟩

/-! ## Tables

A merge of a payload is `accept`, entry by entry. Two payloads commute unless some member is in
conflict (`Conflict`). -/

namespace Membership

variable {urlsplit : String → Except PyError SplitResult} {self : Membership} {now : String → Binary64}
  {nid n : String} {info : Member}

/-- What the table says of a node. -/
def standing (self : Membership) (n : String) : WithBot Standing :=
  (self.members.get? n).elim ⊥ fun m => standingOf m.incarnation m.status

/-- What an entry of a payload says. -/
def entryStanding : PyVal → WithBot Standing
  | .dict info => (readInfo info).elim ⊥ fun read => standingOf read.2 read.1
  | _ => ⊥

/-- What a payload says of a node. -/
def said (entries : Items) (n : String) : WithBot Standing :=
  (entries.lookup (.str n)).elim ⊥ entryStanding

/-- A payload whose entries all pass the checks of `_merge_membership`; its keys are distinct. -/
structure ValidPayload (urlsplit : String → Except PyError SplitResult) (m : Membership)
    (entries : Items) :
    Prop where
  nodup : (entries.map Prod.fst).Nodup
  valid : ∀ e ∈ entries, ∃ nid info, e = (.str nid, .dict info) ∧ nid ≠ "" ∧ nid.length ≤ 255
    ∧ (readInfo info).isSome ∧ (nid ≠ m.nodeId → (m.entryAddress urlsplit info).isSome)

/-- The table after a payload. -/
def merged (urlsplit : String → Except PyError SplitResult) (self : Membership)
    (now : String → Binary64)
    (entries : Items) : Membership :=
  after (mergeMembership urlsplit now (.dict entries)) self

theorem merged_eq (self : Membership) (entries : Items) :
    self.merged urlsplit now entries = entries.foldl (mergeEntry urlsplit now) self := rfl

theorem standing_setMember :
    (self.setMember nid info).standing n
      = if n = nid then (standingOf info.incarnation info.status : WithBot Standing)
        else self.standing n := by
  unfold standing setMember
  rw [Dict.get?_set]
  split <;> rfl

/-- An entry that is known. -/
theorem standing_update {localInfo : Member} (hlocal : self.members.get? nid = some localInfo) :
    (self.update nid localInfo info).standing n
      = if n = nid then accept (self.standing n) (standingOf info.incarnation info.status)
        else self.standing n := by
  have hstanding : self.standing nid = standingOf localInfo.incarnation localInfo.status := by
    rw [standing, hlocal]
    rfl
  unfold update
  by_cases hn : n = nid
  · subst hn
    rw [if_pos rfl, hstanding]
    rcases lt_trichotomy localInfo.incarnation info.incarnation with hlt | heq | hgt
    · -- a higher incarnation
      rw [if_pos hlt, standing_setMember, if_pos rfl, accept_of_not_blocked, sup_eq_right.mpr]
      · exact WithBot.coe_le_coe.mpr (Prod.Lex.toLex_le_toLex.mpr (.inl hlt))
      · rintro ⟨i, hx, hy⟩
        exact hlt.ne ((standingOf_inj.mp hx).1.trans (standingOf_inj.mp hy).1.symm)
    · -- the same incarnation
      rw [if_neg heq.not_lt, if_pos heq.symm, heq, accept_standingOf]
      split_ifs with hworse
      · rw [standing_setMember, if_pos rfl]
      · rw [hstanding, heq]
    · -- an older incarnation
      rw [if_neg hgt.not_gt, if_neg hgt.ne, hstanding, accept_of_not_blocked, sup_eq_left.mpr]
      · exact WithBot.coe_le_coe.mpr (Prod.Lex.toLex_le_toLex.mpr (.inl hgt))
      · rintro ⟨i, hx, hy⟩
        exact hgt.ne ((standingOf_inj.mp hy).1.trans (standingOf_inj.mp hx).1.symm)
  · rw [if_neg hn]
    split_ifs
    · rw [standing_setMember, if_neg hn]
    · rw [standing_setMember, if_neg hn]
    · rfl
    · rfl

/-- A valid entry about another node, when there is room for it. -/
theorem standing_adopt (hroom : self.members.get? nid = none → self.members.size < maxMembers) :
    (self.adopt nid info).standing n
      = if n = nid then accept (self.standing n) (standingOf info.incarnation info.status)
        else self.standing n := by
  unfold adopt
  cases hlocal : self.members.get? nid with
  | none =>
    have hbot : self.standing nid = ⊥ := by
      rw [standing, hlocal]
      rfl
    show (if maxMembers ≤ self.members.size then self else self.setMember nid info).standing n = _
    rw [if_neg (not_le.mpr (hroom hlocal)), standing_setMember]
    by_cases hn : n = nid
    · rw [if_pos hn, if_pos hn, hn, hbot, accept_of_not_blocked, bot_sup_eq]
      rintro ⟨i, hi, -⟩
      cases hi
    · rw [if_neg hn, if_neg hn]
  | some localInfo => exact standing_update hlocal

/-- An entry about the node itself. -/
theorem standing_refute {time : Binary64} {status : Status} {incarnation : ℤ} (hn : n ≠ self.nodeId) :
    (self.refute time status incarnation).standing n = self.standing n := by
  unfold refute
  split_ifs
  · unfold standing
    cases hown : self.members.get? self.nodeId with
    | none => rfl
    | some own =>
      show ((self.members.set self.nodeId _).get? n).elim ⊥ _ = _
      rw [Dict.get?_set_of_ne hn]
  · rfl

theorem keys_setMember (self : Membership) (nid : String) (info : Member) {k : String} :
    k ∈ (self.setMember nid info).members.keys → k ∈ self.members.keys ∨ k = nid := by
  intro hk
  show k ∈ self.members.keys ∨ k = nid
  rw [show (self.setMember nid info).members = self.members.set nid info from rfl, Dict.keys_set] at hk
  split at hk
  · exact .inl hk
  · rcases List.mem_append.mp hk with hk | hk
    · exact .inl hk
    · exact .inr (List.mem_singleton.mp hk)

/-- The nodes that are known or told of are among `N`, which leaves room for them. -/
structure Within (N : Finset String) (m : Membership) (entries : Items) : Prop where
  members : ∀ n, n ∈ m.members.keys → n ∈ N
  entries : ∀ n, .str n ∈ entries.map Prod.fst → n ∈ N

/-- The fields that merging leaves alone. -/
structure SameNode (m m' : Membership) : Prop where
  nodeId : m'.nodeId = m.nodeId
  allowed : m'.allowedPeerOrigins = m.allowedPeerOrigins

theorem SameNode.entryAddress {m m' : Membership} (h : SameNode m m') (info : Items) :
    m'.entryAddress urlsplit info = m.entryAddress urlsplit info := by
  have hvalidate : ∀ v, m'.validatePeerAddress urlsplit v = m.validatePeerAddress urlsplit v := by
    intro v
    unfold validatePeerAddress
    rw [h.allowed]
  simp only [Membership.entryAddress, hvalidate]

theorem ValidPayload.of_same {m m' : Membership} {entries : Items} (h : ValidPayload urlsplit m entries)
    (hsame : SameNode m m') : ValidPayload urlsplit m' entries where
  nodup := h.nodup
  valid := by
    intro e he
    obtain ⟨nid, info, heq, hne, hlen, hread, haddress⟩ := h.valid e he
    refine ⟨nid, info, heq, hne, hlen, hread, fun hnid => ?_⟩
    rw [hsame.entryAddress]
    exact haddress (hsame.nodeId ▸ hnid)

theorem said_cons_ne {k : PyKey} {v : PyVal} {rest : Items} (h : .str n ≠ k) :
    said ((k, v) :: rest) n = said rest n := by
  have hbeq : (PyKey.str n == k) = false := beq_eq_false_iff_ne.mpr h
  rw [said, List.lookup_cons, hbeq]
  rfl

theorem said_cons_self {v : PyVal} {rest : Items} : said ((.str n, v) :: rest) n = entryStanding v := by
  rw [said, List.lookup_cons, beq_self_eq_true]
  rfl

theorem said_of_notMem {entries : Items} (h : .str n ∉ entries.map Prod.fst) : said entries n = ⊥ := by
  have hnone : entries.lookup (.str n) = none := by
    rw [List.lookup_eq_none_iff]
    intro e he
    exact bne_iff_ne.mpr fun heq => h (List.mem_map.mpr ⟨e, he, heq.symm⟩)
  rw [said, hnone]
  rfl

/-- Taking over an entry about another node keeps the nodes among `N`. -/
theorem keys_adopt {N : Finset String} (hmembers : ∀ n, n ∈ self.members.keys → n ∈ N)
    (hnid : nid ∈ N) :
    ∀ n, n ∈ (self.adopt nid info).members.keys → n ∈ N := by
  have hset : ∀ (m : Member) n, n ∈ (self.setMember nid m).members.keys → n ∈ N := by
    intro m n hn
    rcases keys_setMember self nid m hn with hn | rfl
    · exact hmembers n hn
    · exact hnid
  intro n hn
  unfold adopt update at hn
  split at hn
  · split_ifs at hn
    · exact hmembers n hn
    · exact hset _ n hn
  · split_ifs at hn
    · exact hset _ n hn
    · exact hset _ n hn
    · exact hmembers n hn
    · exact hmembers n hn

theorem keys_refute {time : Binary64} {status : Status} {incarnation : ℤ} (n : String) :
    n ∈ (self.refute time status incarnation).members.keys → n ∈ self.members.keys := by
  intro hn
  unfold refute at hn
  split_ifs at hn
  · cases hown : self.members.get? self.nodeId with
    | none =>
      simp only [hown] at hn
      exact hn
    | some own =>
      simp only [hown, Dict.keys_set, if_pos (Dict.mem_keys_of_get? hown)] at hn
      exact hn
  · exact hn

theorem sameNode_refute {time : Binary64} {status : Status} {incarnation : ℤ} :
    SameNode self (self.refute time status incarnation) := by
  unfold refute
  split_ifs
  · exact ⟨rfl, rfl⟩
  · exact ⟨rfl, rfl⟩

theorem sameNode_adopt : SameNode self (self.adopt nid info) := by
  unfold adopt update
  split
  · split_ifs <;> exact ⟨rfl, rfl⟩
  · split_ifs <;> exact ⟨rfl, rfl⟩

/-- **One valid entry.** -/
theorem mergeEntry_valid (now : String → Binary64) {N : Finset String} (hN : N.card ≤ maxMembers)
    (hmembers : ∀ n, n ∈ self.members.keys → n ∈ N) {info : Items} (hnid : nid ∈ N) (hne : nid ≠ "")
    (hlen : nid.length ≤ 255) (hread : (readInfo info).isSome)
    (haddress : nid ≠ self.nodeId → (self.entryAddress urlsplit info).isSome) :
    SameNode self (mergeEntry urlsplit now self (.str nid, .dict info))
      ∧ (∀ n, n ∈ (mergeEntry urlsplit now self (.str nid, .dict info)).members.keys → n ∈ N)
      ∧ ∀ n, n ≠ self.nodeId → (mergeEntry urlsplit now self (.str nid, .dict info)).standing n
        = if n = nid then accept (self.standing n) (entryStanding (.dict info))
          else self.standing n := by
  obtain ⟨⟨status, incarnation⟩, hread⟩ := Option.isSome_iff_exists.mp hread
  have hcheck : ¬ (nid = "" ∨ 255 < nid.length) := not_or.mpr ⟨hne, not_lt.mpr hlen⟩
  have hsays : entryStanding (.dict info) = standingOf incarnation status := by
    rw [entryStanding, hread]
    rfl
  simp only [mergeEntry, if_neg hcheck, hread, hsays]
  by_cases hself : nid = self.nodeId
  · rw [if_pos hself]
    refine ⟨sameNode_refute, fun n hn => hmembers n (keys_refute n hn), fun n hn => ?_⟩
    rw [standing_refute hn, if_neg (hself ▸ hn)]
  · obtain ⟨address, haddress⟩ := Option.isSome_iff_exists.mp (haddress hself)
    simp only [if_neg hself, haddress]
    refine ⟨sameNode_adopt, keys_adopt hmembers hnid, fun n _ => standing_adopt fun hnone => ?_⟩
    -- the nodes that are known are among those of `N` but this one
    have hsize : self.members.size ≤ (N.erase nid).card := by
      refine Dict.size_le_card fun k hk => Finset.mem_erase.mpr ⟨?_, hmembers k hk⟩
      rintro rfl
      exact Dict.get?_eq_none_iff.mp hnone hk
    rw [Finset.card_erase_of_mem hnid] at hsize
    have hpos := Finset.card_pos.mpr ⟨nid, hnid⟩
    omega

/-- **A valid payload.** Every other node is told what the payload says of it. -/
theorem foldl_mergeEntry (now : String → Binary64) {N : Finset String} (hN : N.card ≤ maxMembers)
    (entries : Items)
    (hvalid : ValidPayload urlsplit self entries) (hwithin : Within N self entries) :
    SameNode self (entries.foldl (mergeEntry urlsplit now) self)
      ∧ (∀ n, n ∈ (entries.foldl (mergeEntry urlsplit now) self).members.keys → n ∈ N)
      ∧ ∀ n, n ≠ self.nodeId → (entries.foldl (mergeEntry urlsplit now) self).standing n
        = accept (self.standing n) (said entries n) := by
  induction entries generalizing self with
  | nil =>
    refine ⟨⟨rfl, rfl⟩, hwithin.members, fun n _ => ?_⟩
    rw [said_of_notMem List.not_mem_nil, accept_of_not_blocked, sup_bot_eq]
    · rfl
    · rintro ⟨i, -, hi⟩
      cases hi
  | cons e rest ih =>
    obtain ⟨nid, info, rfl, hne, hlen, hread, haddress⟩ := hvalid.valid e List.mem_cons_self
    have hnid : nid ∈ N := hwithin.entries nid List.mem_cons_self
    obtain ⟨hsame, hkeys, hstanding⟩ :=
      mergeEntry_valid now hN hwithin.members hnid hne hlen hread haddress
    have hnodup := List.nodup_cons.mp hvalid.nodup
    have hvalid' : ValidPayload urlsplit self rest :=
      ⟨hnodup.2, fun e he => hvalid.valid e (List.mem_cons_of_mem _ he)⟩
    obtain ⟨hsame', hkeys', hstanding'⟩ := ih (hvalid'.of_same hsame)
      ⟨hkeys, fun n hn => hwithin.entries n (List.mem_cons_of_mem _ hn)⟩
    refine ⟨⟨hsame'.nodeId.trans hsame.nodeId, hsame'.allowed.trans hsame.allowed⟩, hkeys',
      fun n hn => ?_⟩
    rw [List.foldl_cons, hstanding' n (hsame.nodeId ▸ hn), hstanding n hn]
    by_cases hn' : n = nid
    · -- the rest says nothing of this node
      subst hn'
      rw [if_pos rfl, said_of_notMem hnodup.1, said_cons_self, accept_of_not_blocked, sup_bot_eq]
      rintro ⟨i, -, hi⟩
      cases hi
    · rw [if_neg hn', said_cons_ne fun heq => hn' (PyKey.str.inj heq)]

/-- Two payloads, one after the other. -/
theorem standing_merged_merged {N : Finset String} (hN : N.card ≤ maxMembers) {p q : Items}
    (hp : ValidPayload urlsplit self p) (hq : ValidPayload urlsplit self q)
    (hwithin : Within N self (p ++ q)) (now now' : String → Binary64) (hn : n ≠ self.nodeId) :
    ((self.merged urlsplit now p).merged urlsplit now' q).standing n
      = accept (accept (self.standing n) (said p n)) (said q n) := by
  have hp' : ∀ n, .str n ∈ p.map Prod.fst → n ∈ N := fun n hn => by
    refine hwithin.entries n ?_
    rw [List.map_append]
    exact List.mem_append_left _ hn
  have hq' : ∀ n, .str n ∈ q.map Prod.fst → n ∈ N := fun n hn => by
    refine hwithin.entries n ?_
    rw [List.map_append]
    exact List.mem_append_right _ hn
  obtain ⟨hsame, hkeys, hstanding⟩ := foldl_mergeEntry now hN p hp ⟨hwithin.members, hp'⟩
  obtain ⟨-, -, hstanding'⟩ := foldl_mergeEntry now' hN q (hq.of_same hsame) ⟨hkeys, hq'⟩
  rw [merged_eq, merged_eq, hstanding' n (hsame.nodeId ▸ hn), hstanding n hn]

end Membership

open Sketchlog.Mesh.Membership

/-- **Merging commutes without conflicts.** For every table and every two payloads of valid entries,
with at most `MAX_MEMBERS` nodes among them: in either order every other node ends up with the join
of what the table and the two payloads say, exactly when there is no conflict about any of them. -/
theorem merge_membership_joins_iff (urlsplit : String → Except PyError SplitResult) (self : Membership)
    {p q : Items} (hp : ValidPayload urlsplit self p) (hq : ValidPayload urlsplit self q)
    {N : Finset String}
    (hN : N.card ≤ maxMembers) (hwithin : Membership.Within N self (p ++ q))
    (now now' : String → Binary64) :
    (∀ n, n ≠ self.nodeId →
        ((self.merged urlsplit now p).merged urlsplit now' q).standing n
          = self.standing n ⊔ said p n ⊔ said q n
        ∧ ((self.merged urlsplit now q).merged urlsplit now' p).standing n
          = self.standing n ⊔ said p n ⊔ said q n)
      ↔ ∀ n, n ≠ self.nodeId → ¬ Conflict (self.standing n) (said p n) (said q n) := by
  have hwithin' : Membership.Within N self (q ++ p) := by
    refine ⟨hwithin.members, fun n hn => hwithin.entries n ?_⟩
    rw [List.map_append, List.mem_append] at hn ⊢
    exact hn.symm
  refine forall_congr' fun n => imp_congr_right fun hn => ?_
  rw [standing_merged_merged hN hp hq hwithin now now' hn,
    standing_merged_merged hN hq hp hwithin' now now' hn]
  exact accept_comm_iff

/-! ## Suspect and dead -/

/-- A node that knows itself and one other, alive at the incarnation 1. -/
def Membership.pair : Membership where
  nodeId := "node1"
  advertisedAddress := none
  heartbeatTimeout := .ofInt 60 Binary64.abs_sixty_lt
  allowedPeerOrigins := []
  incarnation := 0
  members :=
    ((∅ : Dict String Member).set "node1" ⟨some (.str ""), .alive, 0, .ofInt 0 Binary64.abs_zero_lt,
      .none⟩).set "node2"
      ⟨some (.str ""), .alive, 1, .ofInt 0 Binary64.abs_zero_lt, .none⟩

/-- A payload that says a status of the other node at the incarnation 1. -/
def Membership.rumour (status : String) : Items :=
  [(.str "node2", .dict [(.str "address", .str ""), (.str "status", .str status),
    (.str "incarnation", .int 1)])]

/-- Addresses are empty here, and no URL is parsed. -/
def noUrl : String → Except PyError SplitResult := fun _ => .error (.valueError "no URL")

theorem Membership.valid_rumour {status : String} (h : (Status.read (.str status)).isSome) :
    ValidPayload noUrl pair (rumour status) where
  nodup := List.nodup_singleton _
  valid := by
    intro e he
    rw [List.mem_singleton.mp he]
    refine ⟨_, _, rfl, by decide, by decide, ?_, fun _ => rfl⟩
    obtain ⟨s, hs⟩ := Option.isSome_iff_exists.mp h
    unfold readInfo
    rw [show Items.get _ "status" = .str status from rfl, hs]
    rfl

theorem Membership.within_pair (p q : String) :
    Within {"node1", "node2"} pair (rumour p ++ rumour q) where
  members := by
    show ∀ n, n ∈ ["node1", "node2"] → n ∈ ({"node1", "node2"} : Finset String)
    intro n hn
    simpa using hn
  entries := by
    intro n hn
    have hcases : (PyKey.str n) = .str "node2" := by simpa [rumour] using hn
    rw [PyKey.str.inj hcases]
    decide

theorem Membership.standing_pair {n : String} (h1 : n ≠ "node1") (h2 : n ≠ "node2") :
    pair.standing n = ⊥ := by
  unfold standing pair
  rw [Dict.get?_set_of_ne h2, Dict.get?_set_of_ne h1]
  rfl

theorem Membership.said_rumour {n status : String} (h2 : n ≠ "node2") : said (rumour status) n = ⊥ := by
  refine said_of_notMem fun hn => h2 ?_
  exact PyKey.str.inj (List.mem_singleton.mp hn)

/-- Alive and suspect: no conflict, and in either order the other node is suspect. -/
theorem merge_membership_joins_suspect :
    ((pair.merged noUrl (fun _ => .ofInt 5 Binary64.abs_five_lt) (rumour "alive")).merged noUrl
        (fun _ => .ofInt 5 Binary64.abs_five_lt) (rumour "suspect")).standing "node2"
      = standingOf 1 .suspect := by
  have hiff := merge_membership_joins_iff noUrl pair
    (valid_rumour (rfl : (Status.read (.str "alive")).isSome))
    (valid_rumour (rfl : (Status.read (.str "suspect")).isSome)) (by decide) (within_pair _ _)
    (fun _ => .ofInt 5 Binary64.abs_five_lt) (fun _ => .ofInt 5 Binary64.abs_five_lt)
  have hnone : ∀ n, n ≠ pair.nodeId →
      ¬ Conflict (pair.standing n) (said (rumour "alive") n) (said (rumour "suspect") n) := by
    rintro n hn ⟨i, hjoin, -⟩
    by_cases h2 : n = "node2"
    · subst h2
      have hdead : (standingOf 1 .suspect : WithBot Standing) = standingOf i .dead := hjoin
      cases (standingOf_inj.mp hdead).2
    · rw [standing_pair hn h2, said_rumour h2, said_rumour h2] at hjoin
      cases hjoin
  exact (hiff.mpr hnone "node2" (by decide)).1

/-- Suspect and dead at one incarnation: the payload that comes first decides. -/
theorem merge_membership_depends_on_order :
    ValidPayload noUrl pair (rumour "suspect") ∧ ValidPayload noUrl pair (rumour "dead")
      ∧ ((pair.merged noUrl (fun _ => .ofInt 5 Binary64.abs_five_lt) (rumour "suspect")).merged noUrl
          (fun _ => .ofInt 5 Binary64.abs_five_lt) (rumour "dead")).standing "node2"
        ≠ ((pair.merged noUrl (fun _ => .ofInt 5 Binary64.abs_five_lt) (rumour "dead")).merged noUrl
          (fun _ => .ofInt 5 Binary64.abs_five_lt) (rumour "suspect")).standing "node2" := by
  refine ⟨valid_rumour rfl, valid_rumour rfl, fun hsame => ?_⟩
  have hdead : (standingOf 1 .suspect : WithBot Standing) = standingOf 1 .dead := hsame
  cases (standingOf_inj.mp hdead).2

end Sketchlog.Mesh
