import JXPanel.Parties

namespace JXPanel
set_option autoImplicit true

open Copies

namespace Parties

section Guards
variable {α β : Type}

/-- No message, mark, question or write tells of a store that the panel has not read. -/
structure Quiet (p : Parties α β) : Prop where
  messages : p.messages = 0
  marker : p.marker = false
  asked : (p.system.party .panel).asked = 0
  writes : ∀ x ∈ p.system.writes, x.1 = .panel

/-- No program is between its read and its write. -/
def Idle (p : Parties α β) : Prop := p.Quiet ∧ ∀ w, (p.system.party w).fetched = []

/-- The panel changes its copy only while nothing else is going on, and the store is read only when all that was
written is stored; the other programs read it only while nothing else is going on. -/
def Guarded (p : Parties α β) : Move → Prop
  | .turn _ => p.Idle
  | .fetch w => p.system.writes = [] ∧ (w ≠ .panel → p.Idle)
  | _ => True

end Guards

/-- What a turn does, whatever the changes are. -/
structure Recorded (w : Process) (b : Bool) (s s' : System Process Change (History Change) (History Change)) : Prop where
  others : ∀ j, j ≠ w → s'.party j = s.party j
  asked : (s'.party w).asked = (s.party w).asked
  fetched : (s'.party w).fetched = (s.party w).fetched
  writes : ∃ ws, s'.writes = s.writes ++ ws ∧ (∀ x ∈ ws, x.1 = w) ∧ (ws = [] → s'.saves = s.saves) ∧ (b = false → ws = [])
  stored : s'.stored = s.stored
  knows : (∀ v, (s.party w).copy = some v → ∀ e ∈ s.saves, e ∈ v) →
    ∀ v, (s'.party w).copy = some v → ∀ e ∈ s'.saves, e ∈ v

section Recorded
variable {s s' s₁ : System Process Change (History Change) (History Change)} {w : Process} {b b' : Bool} {c : Change}

theorem Recorded.refl (w : Process) (s : System Process Change (History Change) (History Change)) :
    Recorded w false s s where
  others _ _ := rfl
  asked := rfl
  fetched := rfl
  writes := ⟨[], (List.append_nil _).symm, fun _ hx => absurd hx List.not_mem_nil, fun _ => rfl, fun _ => rfl⟩
  stored := rfl
  knows := id

theorem Recorded.trans (h : Recorded w b s s₁) (h' : Recorded w b' s₁ s') : Recorded w (b || b') s s' := by
  obtain ⟨ws, hws, hown, hsaves, hquiet⟩ := h.writes
  obtain ⟨ws', hws', hown', hsaves', hquiet'⟩ := h'.writes
  refine ⟨fun j hj => (h'.others j hj).trans (h.others j hj), h'.asked.trans h.asked, h'.fetched.trans h.fetched,
    ⟨ws ++ ws', ?_, fun x hx => ?_, fun hnil => ?_, fun hb => ?_⟩, h'.stored.trans h.stored, fun hk => h'.knows (h.knows hk)⟩
  · rw [hws', hws, List.append_assoc]
  · rcases List.mem_append.1 hx with hx | hx
    · exact hown x hx
    · exact hown' x hx
  · obtain ⟨hnil, hnil'⟩ := List.append_eq_nil_iff.1 hnil
    exact (hsaves' hnil').trans (hsaves hnil)
  · obtain ⟨hb, hb'⟩ := Bool.or_eq_false_iff.1 hb
    rw [hquiet hb, hquiet' hb']
    rfl

theorem recorded_change (w : Process) (c : Change) (s : System Process Change (History Change) (History Change)) :
    Recorded w false s (s.step history (.change w c)) := by
  cases hv : (s.party w).copy with
  | none =>
    rw [System.step, System.change, hv]
    exact .refl w s
  | some v =>
    have hself := System.setParty_self s w { s.party w with copy := some ((s.made, c) :: v) }
    rw [System.step_change hv]
    refine ⟨fun j hj => System.setParty_of_ne s _ hj, ?_, ?_, ⟨[], (List.append_nil _).symm,
      fun _ hx => absurd hx List.not_mem_nil, fun _ => rfl, fun _ => rfl⟩, rfl, fun hk v' hv' e he => ?_⟩
    · change ((s.setParty w { s.party w with copy := some ((s.made, c) :: v) }).party w).asked = _
      rw [hself]
    · change ((s.setParty w { s.party w with copy := some ((s.made, c) :: v) }).party w).fetched = _
      rw [hself]
    · obtain rfl := Option.some.inj ((congrArg Party.copy hself).symm.trans hv')
      exact List.mem_cons_of_mem _ (hk v hv e he)

theorem recorded_save (w : Process) (c : Change) (s : System Process Change (History Change) (History Change)) :
    Recorded w true s (s.step history (.save w c)) := by
  cases hv : (s.party w).copy with
  | none =>
    rw [System.step, System.save, hv]
    exact ⟨fun _ _ => rfl, rfl, rfl, ⟨[], (List.append_nil _).symm, fun _ hx => absurd hx List.not_mem_nil,
      fun _ => rfl, fun _ => rfl⟩, rfl, id⟩
  | some v =>
    have hself := System.setParty_self s w { s.party w with copy := some ((s.made, c) :: v) }
    rw [System.step_save hv]
    refine ⟨fun j hj => System.setParty_of_ne s _ hj, ?_, ?_, ⟨[(w, (s.made, c) :: v)], rfl, fun x hx => ?_,
      (fun hnil => by cases hnil), fun hb => by cases hb⟩,
      rfl, fun hk v' hv' e he => ?_⟩
    · change ((s.setParty w { s.party w with copy := some ((s.made, c) :: v) }).party w).asked = _
      rw [hself]
    · change ((s.setParty w { s.party w with copy := some ((s.made, c) :: v) }).party w).fetched = _
      rw [hself]
    · rw [List.mem_singleton.1 hx]
    · obtain rfl := Option.some.inj ((congrArg Party.copy hself).symm.trans hv')
      rcases List.mem_cons.1 he with rfl | he
      · exact List.mem_cons_self
      · exact List.mem_cons_of_mem _ (hk v hv e he)

theorem recorded (w : Process) (l : Turn) (s : System Process Change (History Change) (History Change)) :
    Recorded w (l.any Prod.snd) s ((record w l).foldl (System.step history) s) := by
  induction l generalizing s with
  | nil => exact .refl w s
  | cons x l ih =>
    obtain ⟨c, saved⟩ := x
    rw [List.any_cons]
    cases saved with
    | false => exact (recorded_change w c s).trans (ih (s.step history (.change w c)))
    | true => exact (recorded_save w c s).trans (ih (s.step history (.save w c)))

/-- What was stored last is as before where nothing was written. -/
theorem Recorded.newest (h : Recorded w b s s') (hsame : s'.writes = s.writes) : s'.newest = s.newest := by
  rw [System.newest, System.newest, hsame, h.stored]

end Recorded

/-- Only one program at a time is between its read and the moment that the panel has read what it wrote. -/
structure Ordered (h : Histories) : Prop where
  tree : ∃ origin, h.system.Tree origin
  complete : h.system.Complete
  fetched : ∀ w, ∀ v ∈ (h.system.party w).fetched, v = h.system.newest
  alone : ∀ w, w ≠ .panel → (h.system.party w).fetched ≠ [] →
    h.Quiet ∧ ∀ w', w' ≠ w → (h.system.party w').fetched = []
  one : ∀ w, w ≠ .panel → (h.system.party w).fetched.length ≤ 1
  informed : h.Quiet → (h.system.party .panel).fetched = [] → ∀ v, (h.system.party .panel).copy = some v → h.Knows v
  scheduler : ∀ x ∈ h.system.writes, x.1 = .scheduler → 0 < h.messages ∨ 0 < (h.system.party .panel).asked
  tool : ∀ n, ∀ x ∈ h.system.writes, x.1 = .tool n → h.marks n = some true ∨
    h.marks n = some false ∧ (h.marker = true ∨ 0 < (h.system.party .panel).asked)
  started : ∀ n, 0 < (h.system.party (.tool n)).asked + (h.system.party (.tool n)).fetched.length →
    (h.system.party (.tool n)).asked + (h.system.party (.tool n)).fetched.length = 1 ∧ h.marks n = some true ∧
      ∀ x ∈ h.system.writes, x.1 ≠ .tool n

theorem eq_of_parts {α β : Type} {p q : Parties α β} (hsystem : p.system = q.system) (hmessages : p.messages = q.messages)
    (hmarker : p.marker = q.marker) (hmarks : p.marks = q.marks) : p = q := by
  cases p
  cases q
  simp only [Parties.mk.injEq]
  exact ⟨hsystem, hmessages, hmarker, hmarks⟩

namespace Ordered
variable {h : Histories} {w : Process} {l : Turn}

/-- What was stored is complete after a turn on a copy that knows of all. -/
theorem complete_record {s : System Process Change (History Change) (History Change)} (htree : ∃ origin, s.Tree origin)
    (hc : s.Complete) (w : Process) (l : Turn) (hk : ∀ v, (s.party w).copy = some v → ∀ e ∈ s.saves, e ∈ v) :
    ((record w l).foldl (System.step history) s).Complete := by
  obtain ⟨origin, hs⟩ := htree
  exact (hs.complete_iff (record w l)).2 ⟨hc, (record_current hs w l).2 fun _ => hk⟩

theorem turn (ho : Ordered h) (hidle : h.Idle) : Ordered (h.move history (.turn l)) := by
  obtain ⟨hquiet, hnone⟩ := hidle
  have hk := ho.informed hquiet (hnone .panel)
  obtain ⟨origin, htree⟩ := ho.tree
  have hr := recorded .panel l h.system
  obtain ⟨ws, hws, hown, hsaves, -⟩ := hr.writes
  have hfetched : ∀ w, ((h.move history (.turn l)).system.party w).fetched = [] := by
    intro w
    by_cases hw : w = .panel
    · subst hw
      exact hr.fetched.trans (hnone .panel)
    · exact (congrArg Party.fetched (hr.others w hw)).trans (hnone w)
  have hpanel : ∀ x ∈ (h.move history (.turn l)).system.writes, x.1 = .panel := by
    intro x hx
    have hx' : x ∈ h.system.writes ++ ws := hws ▸ hx
    rcases List.mem_append.1 hx' with hx | hx
    · exact hquiet.writes x hx
    · exact hown x hx
  refine ⟨htree.run _, complete_record ho.tree ho.complete .panel l hk, ?_, ?_, ?_, ?_, ?_, ?_, ?_⟩
  · intro w v hv
    rw [hfetched w] at hv
    exact absurd hv List.not_mem_nil
  · exact fun w _ hne => absurd (hfetched w) hne
  · intro w _
    rw [hfetched w]
    exact Nat.zero_le 1
  · exact fun _ _ => hr.knows hk
  · intro x hx he
    exact absurd ((hpanel x hx).symm.trans he) fun he => by cases he
  · intro n x hx he
    exact absurd ((hpanel x hx).symm.trans he) fun he => by cases he
  · intro n hn
    have hsame : (h.move history (.turn l)).system.party (.tool n) = h.system.party (.tool n) :=
      hr.others _ fun he => by cases he
    rw [hsame] at hn ⊢
    obtain ⟨hone, hmark, -⟩ := ho.started n hn
    refine ⟨hone, hmark, fun x hx he => ?_⟩
    exact absurd ((hpanel x hx).symm.trans he) fun he => by cases he

/-- The panel asks for the store once it has been told that there is something to read. -/
theorem ask {h' : Histories} (ho : Ordered h) (hbusy : ¬h.Quiet)
    (hsystem : h'.system = h.system.step history (.ask .panel)) (hmarks : h'.marks = h.marks) : Ordered h' := by
  obtain ⟨origin, htree⟩ := ho.tree
  have hasked : 0 < (h'.system.party .panel).asked := by
    rw [hsystem, System.step, System.setParty_self]
    exact Nat.succ_pos _
  have hsame : ∀ w, (h'.system.party w).copy = (h.system.party w).copy ∧
      (h'.system.party w).fetched = (h.system.party w).fetched := by
    intro w
    rw [hsystem, System.step]
    rcases eq_or_ne w .panel with rfl | hw
    · rw [System.setParty_self]
      exact ⟨rfl, rfl⟩
    · rw [System.setParty_of_ne _ _ hw]
      exact ⟨rfl, rfl⟩
  have htool : ∀ n, h'.system.party (.tool n) = h.system.party (.tool n) := by
    intro n
    rw [hsystem]
    exact System.setParty_of_ne _ _ fun he => by cases he
  have hwrites : h'.system.writes = h.system.writes := by
    rw [hsystem]
    rfl
  refine ⟨hsystem ▸ htree.step _, ?_, ?_, ?_, ?_, ?_, ?_, ?_, ?_⟩
  · rw [hsystem]
    exact ho.complete
  · intro w v hv
    rw [(hsame w).2] at hv
    rw [hsystem]
    exact ho.fetched w v hv
  · intro w hw hne
    rw [(hsame w).2] at hne
    exact absurd (ho.alone w hw hne).1 hbusy
  · intro w hw
    rw [(hsame w).2]
    exact ho.one w hw
  · exact fun hquiet => absurd hquiet.asked (Nat.pos_iff_ne_zero.1 hasked)
  · exact fun _ _ _ => .inr hasked
  · intro n x hx he
    rw [hwrites] at hx
    rw [hmarks]
    rcases ho.tool n x hx he with hmark | ⟨hmark, -⟩
    · exact .inl hmark
    · exact .inr ⟨hmark, .inr hasked⟩
  · intro n hn
    rw [htool, hwrites, hmarks] at *
    exact ho.started n hn

theorem message (ho : Ordered h) : Ordered (h.move history .message) := by
  by_cases hnone : h.messages = 0
  · have hsystem : (h.move history .message).system = h.system := by
      change ((if h.messages = 0 then [] else [Event.ask Process.panel]).foldl (System.step history) h.system) = _
      rw [if_pos hnone]
      rfl
    have hmessages : (h.move history .message).messages = h.messages := by
      change h.messages - 1 = h.messages
      omega
    rw [eq_of_parts hsystem hmessages rfl rfl]
    exact ho
  · refine ho.ask (fun hquiet => hnone hquiet.messages) ?_ rfl
    change ((if h.messages = 0 then [] else [Event.ask Process.panel]).foldl (System.step history) h.system) = _
    rw [if_neg hnone]
    rfl

theorem reloadIfNeeded (ho : Ordered h) : Ordered (h.move history .reloadIfNeeded) := by
  cases hmarker : h.marker with
  | false =>
    have hsystem : (h.move history .reloadIfNeeded).system = h.system := by
      change ((if h.marker then [Event.ask Process.panel] else []).foldl (System.step history) h.system) = _
      rw [hmarker]
      rfl
    rw [eq_of_parts hsystem rfl hmarker.symm rfl]
    exact ho
  | true =>
    refine ho.ask (fun hquiet => ?_) ?_ rfl
    · exact absurd (hmarker.symm.trans hquiet.marker) fun he => by cases he
    · change ((if h.marker then [Event.ask Process.panel] else []).foldl (System.step history) h.system) = _
      rw [hmarker]
      rfl

/-- Another program asks. -/
theorem askOther (ho : Ordered h) {h' : Histories} (hw : w ≠ .panel)
    (hsystem : h'.system = h.system.step history (.ask w)) (hmessages : h'.messages = h.messages)
    (hmarker : h'.marker = h.marker) (hmarks : ∀ n, h.marks n ≠ none → h'.marks n = h.marks n)
    (hstart : ∀ n, w = .tool n → h.marks n = none ∧ h'.marks n = some true) : Ordered h' := by
  obtain ⟨origin, htree⟩ := ho.tree
  have hother : ∀ j, j ≠ w → h'.system.party j = h.system.party j := by
    intro j hj
    rw [hsystem]
    exact System.setParty_of_ne _ _ hj
  have hself : h'.system.party w = { h.system.party w with asked := (h.system.party w).asked + 1 } := by
    rw [hsystem]
    exact System.setParty_self _ _ _
  have hfetched : ∀ j, (h'.system.party j).fetched = (h.system.party j).fetched := by
    intro j
    rcases eq_or_ne j w with rfl | hj
    · rw [hself]
    · rw [hother j hj]
  have hpanel := hother .panel hw.symm
  have hwrites : h'.system.writes = h.system.writes := by
    rw [hsystem]
    rfl
  have hquiet : h'.Quiet ↔ h.Quiet := by
    constructor
    · exact fun hq => ⟨hmessages ▸ hq.messages, hmarker ▸ hq.marker, hpanel ▸ hq.asked, hwrites ▸ hq.writes⟩
    · intro hq
      refine ⟨hmessages.trans hq.messages, hmarker.trans hq.marker, ?_, ?_⟩
      · rw [hpanel]
        exact hq.asked
      · rw [hwrites]
        exact hq.writes
  refine ⟨hsystem ▸ htree.step _, ?_, ?_, ?_, ?_, ?_, ?_, ?_, ?_⟩
  · rw [hsystem]
    exact ho.complete
  · intro j v hv
    rw [hfetched] at hv
    rw [hsystem]
    exact ho.fetched j v hv
  · intro j hj hne
    rw [hfetched] at hne
    obtain ⟨hq, hnone⟩ := ho.alone j hj hne
    refine ⟨hquiet.2 hq, fun i hi => ?_⟩
    rw [hfetched]
    exact hnone i hi
  · intro j hj
    rw [hfetched]
    exact ho.one j hj
  · intro hq hnone v hv
    rw [hpanel] at hnone hv
    rw [Knows, hsystem]
    exact ho.informed (hquiet.1 hq) hnone v hv
  · intro x hx he
    rw [hwrites] at hx
    rw [hmessages, hpanel]
    exact ho.scheduler x hx he
  · intro n x hx he
    rw [hwrites] at hx
    have htool := ho.tool n x hx he
    have hsome : h.marks n ≠ none := by
      rcases htool with hmark | ⟨hmark, -⟩
      · rw [hmark]
        exact fun he => by cases he
      · rw [hmark]
        exact fun he => by cases he
    rw [hmarks n hsome, hmarker, hpanel]
    exact htool
  · intro n hn
    rw [hwrites]
    rcases eq_or_ne (.tool n) w with he | hne
    · obtain ⟨hnone, hmark⟩ := hstart n he.symm
      rw [← he] at hself
      have hzero : ¬0 < (h.system.party (.tool n)).asked + (h.system.party (.tool n)).fetched.length := by
        intro hpos
        exact absurd (hnone.symm.trans (ho.started n hpos).2.1) fun he => by cases he
      rw [hself]
      refine ⟨?_, hmark, fun x hx he => ?_⟩
      · change (h.system.party (.tool n)).asked + 1 + (h.system.party (.tool n)).fetched.length = 1
        omega
      · rcases ho.tool n x hx he with hsome | ⟨hsome, -⟩
        · exact absurd (hnone.symm.trans hsome) fun he => by cases he
        · exact absurd (hnone.symm.trans hsome) fun he => by cases he
    · rw [hother _ hne] at hn ⊢
      obtain ⟨hone, hmark, hnot⟩ := ho.started n hn
      exact ⟨hone, (hmarks n (by rw [hmark]; exact fun he => by cases he)).trans hmark, hnot⟩

theorem check_quotas (ho : Ordered h) : Ordered (h.move history .check_quotas) :=
  ho.askOther (w := .scheduler) (fun he => by cases he) rfl rfl rfl (fun _ _ => rfl) fun _ he => by cases he

theorem start (ho : Ordered h) (n : Nat) : Ordered (h.move history (.start n)) := by
  by_cases hnone : h.marks n = none
  · refine ho.askOther (w := .tool n) (fun he => by cases he) ?_ rfl rfl (fun m hm => ?_) fun m hm => ?_
    · change ((if h.marks n = none then [Event.ask (Process.tool n)] else []).foldl (System.step history) h.system) = _
      rw [if_pos hnone]
      rfl
    · change (if h.marks n = none then Function.update h.marks n (some true) else h.marks) m = h.marks m
      rw [if_pos hnone]
      refine Function.update_of_ne (fun he => ?_) _ _
      rw [he] at hm
      exact hm hnone
    · obtain rfl := Process.tool.inj hm
      refine ⟨hnone, ?_⟩
      change (if h.marks n = none then Function.update h.marks n (some true) else h.marks) n = some true
      rw [if_pos hnone, Function.update_self]
  · have hsystem : (h.move history (.start n)).system = h.system := by
      change ((if h.marks n = none then [Event.ask (Process.tool n)] else []).foldl (System.step history) h.system) = _
      rw [if_neg hnone]
      rfl
    rw [eq_of_parts hsystem rfl rfl (if_neg hnone)]
    exact ho

theorem newest_of_settled {s : System Process Change (History Change) (History Change)} (hnone : s.writes = []) :
    s.newest = s.stored := by
  rw [System.newest, hnone]
  rfl

/-- What is read when nothing waits to be written is what was written last. -/
theorem fetch (ho : Ordered h) (hnone : h.system.writes = []) (hidle : w ≠ .panel → h.Idle) :
    Ordered (h.move history (.fetch w)) := by
  have hstep : (h.move history (.fetch w)).system = h.system.fetch w := rfl
  obtain ⟨origin, htree⟩ := ho.tree
  cases hasked : (h.system.party w).asked with
  | zero =>
    have hsystem : (h.move history (.fetch w)).system = h.system := by
      rw [hstep, System.fetch, hasked]
    rw [eq_of_parts hsystem rfl rfl rfl]
    exact ho
  | succ n =>
    have hsystem : (h.move history (.fetch w)).system = h.system.setParty w
        { h.system.party w with asked := n, fetched := (h.system.party w).fetched ++ [h.system.stored] } := by
      rw [hstep, System.fetch, hasked]
    have hother : ∀ j, j ≠ w → (h.move history (.fetch w)).system.party j = h.system.party j := by
      intro j hj
      rw [hsystem]
      exact System.setParty_of_ne _ _ hj
    have hself : (h.move history (.fetch w)).system.party w =
        { h.system.party w with asked := n, fetched := (h.system.party w).fetched ++ [h.system.stored] } := by
      rw [hsystem]
      exact System.setParty_self _ _ _
    have hwrites : (h.move history (.fetch w)).system.writes = [] := by
      rw [hsystem]
      exact hnone
    have hnewest : (h.move history (.fetch w)).system.newest = h.system.newest := by
      rw [hsystem]
      rfl
    have hquiet : w ≠ .panel → ((h.move history (.fetch w)).Quiet ↔ h.Quiet) := by
      intro hw
      have hpanel := hother .panel hw.symm
      constructor
      · intro hq
        refine ⟨hq.messages, hq.marker, hpanel ▸ hq.asked, ?_⟩
        rw [hnone]
        exact fun x hx => absurd hx List.not_mem_nil
      · intro hq
        refine ⟨hq.messages, hq.marker, ?_, ?_⟩
        · rw [hpanel]
          exact hq.asked
        · rw [hwrites]
          exact fun x hx => absurd hx List.not_mem_nil
    refine ⟨htree.step (.fetch w), ?_, ?_, ?_, ?_, ?_, ?_, ?_, ?_⟩
    · rw [System.Complete, hnewest, hsystem]
      exact ho.complete
    · intro j v hv
      rw [hnewest]
      rcases eq_or_ne j w with rfl | hj
      · rw [hself] at hv
        rcases List.mem_append.1 hv with hv | hv
        · exact ho.fetched j v hv
        · rw [List.mem_singleton.1 hv, newest_of_settled hnone]
      · rw [hother j hj] at hv
        exact ho.fetched j v hv
    · intro j hj hne
      by_cases hw : w = .panel
      · have hjw : j ≠ w := hw ▸ hj
        rw [hother j hjw] at hne
        have hq := (ho.alone j hj hne).1.asked
        rw [← hw, hasked] at hq
        exact absurd hq (Nat.succ_ne_zero n)
      · obtain ⟨hq, hempty⟩ := hidle hw
        refine ⟨(hquiet hw).2 hq, fun i hi => ?_⟩
        rcases eq_or_ne i w with rfl | hiw
        · rw [hother j hi.symm, hempty j] at hne
          exact absurd rfl hne
        · rw [hother i hiw]
          exact hempty i
    · intro j hj
      rcases eq_or_ne j w with rfl | hjw
      · rw [hself, (hidle hj).2 j]
        exact Nat.le_refl 1
      · rw [hother j hjw]
        exact ho.one j hj
    · intro hq hempty v hv
      by_cases hw : w = .panel
      · rw [← hw, hself] at hempty
        exact absurd hempty (List.append_ne_nil_of_right_ne_nil _ (List.cons_ne_nil _ _))
      · rw [hother .panel (Ne.symm hw)] at hempty hv
        rw [Knows, hsystem]
        exact ho.informed ((hquiet hw).1 hq) hempty v hv
    · intro x hx
      rw [hwrites] at hx
      exact absurd hx List.not_mem_nil
    · intro m x hx
      rw [hwrites] at hx
      exact absurd hx List.not_mem_nil
    · intro m hm
      rw [hwrites]
      have hnot : ∀ x ∈ ([] : List (Process × History Change)), x.1 ≠ .tool m := fun x hx => absurd hx List.not_mem_nil
      rcases eq_or_ne (.tool m) w with he | hne
      · subst he
        rw [hself] at hm ⊢
        have hsum : n + ((h.system.party (.tool m)).fetched ++ [h.system.stored]).length =
            (h.system.party (.tool m)).asked + (h.system.party (.tool m)).fetched.length := by
          rw [List.length_append, List.length_singleton, hasked]
          omega
        obtain ⟨hone, hmark, -⟩ := ho.started m (hsum ▸ hm)
        exact ⟨hsum.trans hone, hmark, hnot⟩
      · rw [hother _ hne] at hm ⊢
        obtain ⟨hone, hmark, -⟩ := ho.started m hm
        exact ⟨hone, hmark, hnot⟩

theorem takeOver_none {w : Process} (hnone : (h.system.party w).fetched = []) (l : Turn) : h.takeOver w l = [] := by
  rw [takeOver, hnone]

theorem taken {v : History Change} {vs : List (History Change)} (hv : (h.system.party w).fetched = v :: vs) :
    h.system.step history (.take w) = h.system.setParty w { h.system.party w with copy := some v, fetched := vs } := by
  rw [System.step, System.take, hv]
  rfl

/-- The panel knows of all again. -/
theorem reload (ho : Ordered h) : Ordered (h.move history .reload) := by
  cases hfetched : (h.system.party .panel).fetched with
  | nil =>
    have hsystem : (h.move history .reload).system = h.system := by
      change (h.takeOver .panel []).foldl (System.step history) h.system = _
      rw [takeOver_none hfetched]
      rfl
    rw [eq_of_parts hsystem rfl rfl rfl]
    exact ho
  | cons v vs =>
    obtain ⟨origin, htree⟩ := ho.tree
    have hsystem : (h.move history .reload).system =
        h.system.setParty .panel { h.system.party .panel with copy := some v, fetched := vs } := by
      change (h.takeOver .panel []).foldl (System.step history) h.system = _
      rw [takeOver, hfetched]
      exact taken hfetched
    have hother : ∀ j, j ≠ .panel → (h.move history .reload).system.party j = h.system.party j := by
      intro j hj
      rw [hsystem]
      exact System.setParty_of_ne _ _ hj
    have hself : (h.move history .reload).system.party .panel =
        { h.system.party .panel with copy := some v, fetched := vs } := by
      rw [hsystem]
      exact System.setParty_self _ _ _
    have hnewest : (h.move history .reload).system.newest = h.system.newest := by
      rw [hsystem]
      rfl
    have hwrites : (h.move history .reload).system.writes = h.system.writes := by
      rw [hsystem]
      rfl
    have hasked : ((h.move history .reload).system.party .panel).asked = (h.system.party .panel).asked := by
      rw [hself]
    have htaken : v = h.system.newest := ho.fetched .panel v (hfetched ▸ List.mem_cons_self)
    refine ⟨htree.run _, ?_, ?_, ?_, ?_, ?_, ?_, ?_, ?_⟩
    · rw [System.Complete, hnewest, hsystem]
      exact ho.complete
    · intro j u hu
      rw [hnewest]
      rcases eq_or_ne j .panel with rfl | hj
      · rw [hself] at hu
        exact ho.fetched .panel u (hfetched ▸ List.mem_cons_of_mem v hu)
      · rw [hother j hj] at hu
        exact ho.fetched j u hu
    · intro j hj hne
      rw [hother j hj] at hne
      have hempty := (ho.alone j hj hne).2 .panel hj.symm
      rw [hfetched] at hempty
      exact absurd hempty (List.cons_ne_nil _ _)
    · intro j hj
      rw [hother j hj]
      exact ho.one j hj
    · intro _ _ u hu
      rw [hself] at hu
      obtain rfl := Option.some.inj hu
      rw [Knows, hsystem, htaken]
      exact ho.complete
    · intro x hx he
      rw [hwrites] at hx
      rw [hasked]
      exact ho.scheduler x hx he
    · intro n x hx he
      rw [hwrites] at hx
      rw [hasked]
      exact ho.tool n x hx he
    · intro n hn
      rw [hwrites]
      rw [hother (.tool n) (fun he => by cases he)] at hn ⊢
      exact ho.started n hn

/-- Another program writes what it has read, and leaves word of it. -/
theorem changeOther (ho : Ordered h) {h' : Histories} (hw : w ≠ .panel)
    (hsystem : h'.system = (h.takeOver w l).foldl (System.step history) h.system) (hmarker : h'.marker = h.marker)
    (hmarks : h'.marks = h.marks) (hmessages : (h.system.party w).fetched = [] → h'.messages = h.messages)
    (htold : w = .scheduler → (h.system.party w).fetched ≠ [] → l.any Prod.snd = true → 0 < h'.messages) : Ordered h' := by
  cases hfetched : (h.system.party w).fetched with
  | nil =>
    have hsame : h'.system = h.system := by
      rw [hsystem, takeOver_none hfetched]
      rfl
    rw [eq_of_parts hsame (hmessages hfetched) hmarker hmarks]
    exact ho
  | cons v vs =>
    obtain ⟨origin, htree⟩ := ho.tree
    have hne : (h.system.party w).fetched ≠ [] := by
      rw [hfetched]
      exact List.cons_ne_nil _ _
    obtain ⟨hquiet, hempty⟩ := ho.alone w hw hne
    obtain rfl : vs = [] := by
      have hone := ho.one w hw
      rw [hfetched, List.length_cons] at hone
      exact List.eq_nil_of_length_eq_zero (by omega)
    have htaken : v = h.system.newest := ho.fetched w v (hfetched ▸ List.mem_cons_self)
    -- the text is taken over first, and the changes are made on it
    let s := h.system.setParty w { h.system.party w with copy := some v, fetched := [] }
    have hsteps : h'.system = (record w l).foldl (System.step history) s := by
      rw [hsystem, takeOver, hfetched]
      change (record w l).foldl (System.step history) (h.system.step history (.take w)) = _
      rw [taken hfetched]
    have hself : s.party w = { h.system.party w with copy := some v, fetched := [] } := System.setParty_self _ _ _
    have hother : ∀ j, j ≠ w → s.party j = h.system.party j := fun j hj => System.setParty_of_ne _ _ hj
    have hstree : ∃ origin, s.Tree origin := by
      obtain ⟨origin', ht⟩ := htree.step (.take w)
      rw [taken hfetched] at ht
      exact ⟨origin', ht⟩
    have hk : ∀ u, (s.party w).copy = some u → ∀ e ∈ s.saves, e ∈ u := by
      intro u hu
      rw [hself] at hu
      obtain rfl := Option.some.inj hu
      rw [htaken]
      exact ho.complete
    have hr := recorded w l s
    rw [← hsteps] at hr
    obtain ⟨ws, hws, hown, hsaves, hsilent⟩ := hr.writes
    have hnone : ∀ j, (h'.system.party j).fetched = [] := by
      intro j
      rcases eq_or_ne j w with rfl | hj
      · rw [hr.fetched, hself]
      · rw [hr.others j hj, hother j hj]
        exact hempty j hj
    have hmem : ∀ x ∈ h'.system.writes, x.1 = .panel ∨ x ∈ ws := by
      intro x hx
      rw [hws] at hx
      rcases List.mem_append.1 hx with hx | hx
      · exact .inl (hquiet.writes x hx)
      · exact .inr hx
    refine ⟨?_, ?_, ?_, ?_, ?_, ?_, ?_, ?_, ?_⟩
    · obtain ⟨origin', ht⟩ := hstree
      rw [hsteps]
      exact ht.run _
    · rw [hsteps]
      exact complete_record hstree ho.complete w l hk
    · intro j u hu
      rw [hnone j] at hu
      exact absurd hu List.not_mem_nil
    · exact fun j _ hj => absurd (hnone j) hj
    · intro j _
      rw [hnone j]
      exact Nat.zero_le 1
    · intro hq _ u hu
      have hnil : ws = [] := by
        rw [List.eq_nil_iff_forall_not_mem]
        intro x hx
        have hpanel := hq.writes x (hws ▸ List.mem_append_right _ hx)
        exact hw ((hown x hx).symm.trans hpanel)
      rw [hr.others .panel hw.symm, hother .panel hw.symm] at hu
      rw [Knows, hsaves hnil]
      exact ho.informed hquiet (hempty .panel hw.symm) u hu
    · intro x hx he
      rcases hmem x hx with hpanel | hx
      · exact absurd (hpanel.symm.trans he) fun he => by cases he
      · refine .inl (htold ((hown x hx).symm.trans he) hne ?_)
        cases hany : l.any Prod.snd with
        | true => rfl
        | false =>
          rw [hsilent hany] at hx
          exact absurd hx List.not_mem_nil
    · intro n x hx he
      rcases hmem x hx with hpanel | hx
      · exact absurd (hpanel.symm.trans he) fun he => by cases he
      · have hwn : w = .tool n := (hown x hx).symm.trans he
        subst hwn
        rw [hmarks]
        refine .inl (ho.started n ?_).2.1
        rw [hfetched, List.length_singleton]
        exact Nat.succ_pos _
    · intro n hn
      rcases eq_or_ne (.tool n) w with he | hj
      · subst he
        rw [hnone, hr.asked, hself] at hn
        have hone := (ho.started n (by rw [hfetched, List.length_singleton]; exact Nat.succ_pos _)).1
        rw [hfetched, List.length_singleton] at hone
        exact absurd hn (by dsimp only [List.length_nil]; omega)
      · rw [hr.others _ hj, hother _ hj] at hn ⊢
        obtain ⟨hone, hmark, -⟩ := ho.started n hn
        refine ⟨hone, hmarks ▸ hmark, fun x hx he => ?_⟩
        rcases hmem x hx with hpanel | hx
        · exact absurd (hpanel.symm.trans he) fun he => by cases he
        · exact hj (he.symm.trans (hown x hx))

theorem pass (ho : Ordered h) (l : Turn) : Ordered (h.move history (.pass l)) := by
  refine ho.changeOther (w := .scheduler) (l := l) (fun he => by cases he) rfl rfl rfl (fun hnone => ?_) fun _ hne hany => ?_
  · exact if_neg fun hall => hall.1 hnone
  · change 0 < if (h.system.party .scheduler).fetched ≠ [] ∧ l.any Prod.snd then h.messages + 1 else h.messages
    rw [if_pos ⟨hne, hany⟩]
    exact Nat.succ_pos _

theorem command (ho : Ordered h) (n : Nat) (l : Turn) : Ordered (h.move history (.command n l)) :=
  ho.changeOther (w := .tool n) (l := l) (fun he => by cases he) rfl rfl rfl (fun _ => rfl) fun he => by cases he

theorem marks_apply_none (hnext : h.nextTool = none) : (h.move history .apply).marks = h.marks := by
  unfold Parties.move
  dsimp only
  rw [hnext]

/-- The first write of a tool leaves the mark. -/
theorem marks_apply_some {n : Nat} (hnext : h.nextTool = some n) :
    (h.move history .apply).marks = Function.update h.marks n (some false) := by
  unfold Parties.move
  dsimp only
  rw [hnext]

/-- What is still to be written of other programs than the panel has left word. -/
theorem apply (ho : Ordered h) : Ordered (h.move history .apply) := by
  have hstep : (h.move history .apply).system = h.system.apply := rfl
  have hmarker : (h.move history .apply).marker = (h.marker || decide (h.nextTool.bind h.marks = some true)) := rfl
  cases hwrites : h.system.writes with
  | nil =>
    have hsystem : (h.move history .apply).system = h.system := by
      rw [hstep, System.apply, hwrites]
    have hnext : h.nextTool = none := by rw [nextTool, hwrites]
    rw [hnext] at hmarker
    rw [eq_of_parts hsystem rfl (hmarker.trans (Bool.or_false _)) (marks_apply_none hnext)]
    exact ho
  | cons x ws =>
    obtain ⟨origin, htree⟩ := ho.tree
    have hsystem : (h.move history .apply).system = { h.system with stored := x.2, writes := ws } := by
      rw [hstep, System.apply, hwrites]
    have hparty : (h.move history .apply).system.party = h.system.party := by rw [hsystem]
    have hrest : ∀ y ∈ (h.move history .apply).system.writes, y ∈ h.system.writes := by
      intro y hy
      rw [hsystem] at hy
      rw [hwrites]
      exact List.mem_cons_of_mem x hy
    have hsaves : (h.move history .apply).system.saves = h.system.saves := by rw [hsystem]
    have hnewest : (h.move history .apply).system.newest = h.system.newest := System.newest_apply h.system
    have hx : x ∈ h.system.writes := hwrites ▸ List.mem_cons_self
    have hmore : h.marker = true → (h.move history .apply).marker = true := by
      intro hm
      rw [hmarker, hm, Bool.true_or]
    -- a write of the panel tells nobody anything, and any other one has left word
    have hloud : x.1 ≠ .panel → ¬(h.move history .apply).Quiet := by
      intro hne hq
      have hasked := hq.asked
      rw [hparty] at hasked
      obtain ⟨w, v⟩ := x
      cases w with
      | panel => exact hne rfl
      | scheduler =>
        have hmessages : h.messages = 0 := hq.messages
        rcases ho.scheduler _ hx rfl with hpos | hpos
        · omega
        · omega
      | tool n =>
        have hnext : h.nextTool = some n := by rw [nextTool, hwrites]
        have hsilent := hq.marker
        rw [hmarker, hnext, Option.bind_some] at hsilent
        obtain ⟨hsilent, hfirst⟩ := Bool.or_eq_false_iff.1 hsilent
        rcases ho.tool n _ hx rfl with hmark | ⟨-, hm | hpos⟩
        · exact absurd hmark (of_decide_eq_false hfirst)
        · exact absurd (hm.symm.trans hsilent) fun he => by cases he
        · omega
    have hquiet : (h.move history .apply).Quiet → h.Quiet := by
      intro hq
      have hpanel : x.1 = .panel := by
        by_contra hne
        exact hloud hne hq
      refine ⟨hq.messages, ?_, by rw [← hparty]; exact hq.asked, fun y hy => ?_⟩
      · have hsilent := hq.marker
        rw [hmarker] at hsilent
        exact (Bool.or_eq_false_iff.1 hsilent).1
      · rw [hwrites] at hy
        rcases List.mem_cons.1 hy with rfl | hy
        · exact hpanel
        · exact hq.writes y (by rw [hsystem]; exact hy)
    have hquiet' : h.Quiet → (h.move history .apply).Quiet := by
      intro hq
      refine ⟨hq.messages, ?_, by rw [hparty]; exact hq.asked, fun y hy => hq.writes y (hrest y hy)⟩
      have hpanel := hq.writes x hx
      have hnext : h.nextTool = none := by
        obtain ⟨w, v⟩ := x
        obtain rfl : w = .panel := hpanel
        rw [nextTool, hwrites]
      rw [hmarker, hnext, hq.marker]
      rfl
    have hkept : ∀ n, (∀ y ∈ h.system.writes, y.1 ≠ .tool n) → (h.move history .apply).marks n = h.marks n := by
      intro n hn
      obtain ⟨w, v⟩ := x
      cases w with
      | panel =>
        have hnext : h.nextTool = none := by rw [nextTool, hwrites]
        rw [marks_apply_none hnext]
      | scheduler =>
        have hnext : h.nextTool = none := by rw [nextTool, hwrites]
        rw [marks_apply_none hnext]
      | tool m =>
        have hnext : h.nextTool = some m := by rw [nextTool, hwrites]
        rw [marks_apply_some hnext]
        refine Function.update_of_ne (fun he => ?_) _ _
        subst he
        exact hn _ hx rfl
    refine ⟨htree.step .apply, ?_, ?_, ?_, ?_, ?_, ?_, ?_, ?_⟩
    · rw [System.Complete, hnewest, hsaves]
      exact ho.complete
    · intro w v hv
      rw [hparty] at hv
      rw [hnewest]
      exact ho.fetched w v hv
    · intro w hw hne
      rw [hparty] at hne ⊢
      obtain ⟨hq, hempty⟩ := ho.alone w hw hne
      exact ⟨hquiet' hq, hempty⟩
    · intro w hw
      rw [hparty]
      exact ho.one w hw
    · intro hq hempty v hv
      rw [hparty] at hempty hv
      rw [Knows, hsaves]
      exact ho.informed (hquiet hq) hempty v hv
    · intro y hy he
      rw [hparty]
      exact ho.scheduler y (hrest y hy) he
    · intro n y hy he
      have htool := ho.tool n y (hrest y hy) he
      rw [hparty]
      by_cases hn : x.1 = .tool n
      · have hnext : h.nextTool = some n := by
          obtain ⟨w, v⟩ := x
          obtain rfl : w = .tool n := hn
          rw [nextTool, hwrites]
        rw [marks_apply_some hnext]
        refine .inr ⟨Function.update_self _ _ _, ?_⟩
        rcases htool with hmark | ⟨-, hm | hpos⟩
        · refine .inl ?_
          rw [hmarker, hnext, Option.bind_some, hmark]
          exact Bool.or_true _
        · exact .inl (hmore hm)
        · exact .inr hpos
      · have hsame : (h.move history .apply).marks n = h.marks n := by
          cases hnext : h.nextTool with
          | none => rw [marks_apply_none hnext]
          | some m =>
            rw [marks_apply_some hnext]
            refine Function.update_of_ne (fun he => ?_) _ _
            subst he
            rw [nextTool, hwrites] at hnext
            obtain ⟨w, v⟩ := x
            cases w with
            | panel => cases hnext
            | scheduler => cases hnext
            | tool m =>
              obtain rfl := Option.some.inj hnext
              exact hn rfl
        rw [hsame]
        rcases htool with hmark | ⟨hmark, hm | hpos⟩
        · exact .inl hmark
        · exact .inr ⟨hmark, .inl (hmore hm)⟩
        · exact .inr ⟨hmark, .inr hpos⟩
    · intro n hn
      rw [hparty] at hn ⊢
      obtain ⟨hone, hmark, hnot⟩ := ho.started n hn
      exact ⟨hone, (hkept n hnot).trans hmark, fun y hy => hnot y (hrest y hy)⟩

/-- A guarded step keeps the order. -/
theorem move (ho : Ordered h) {m : Move} (hg : h.Guarded m) : Ordered (h.move history m) := by
  cases m with
  | turn l => exact ho.turn hg
  | message => exact ho.message
  | reloadIfNeeded => exact ho.reloadIfNeeded
  | check_quotas => exact ho.check_quotas
  | start n => exact ho.start n
  | fetch w => exact ho.fetch hg.1 hg.2
  | reload => exact ho.reload
  | pass l => exact ho.pass l
  | command n l => exact ho.command n l
  | apply => exact ho.apply

end Ordered

section Run
variable {s₀ : Store} {h : Histories} {p : Parties Store (List Char)}

end Run

end Parties
end JXPanel
