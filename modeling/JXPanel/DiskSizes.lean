import JXPanel.NginxConf
import JXPanel.QuotaPass

namespace JXPanel
set_option autoImplicit true

open Hierarchy

section Floats

def digitsNat (ds : List Char) : Nat := ds.foldl (fun n c => n * 10 + (c.toNat - '0'.toNat)) 0

/-- The number with these digits in front of the point and behind it. -/
def decimalValue (whole frac : List Char) : ℚ := digitsNat (whole ++ frac) / 10 ^ frac.length

/-- The exponent that a number may end with. -/
def exponentOf : List Char → ℤ
  | [] => 0
  | c :: cs =>
    if c = 'e' ∨ c = 'E' then
      match cs with
      | '-' :: ds => -(digitsNat (ds.takeWhile Char.isDigit) : ℤ)
      | '+' :: ds => digitsNat (ds.takeWhile Char.isDigit)
      | ds => digitsNat (ds.takeWhile Char.isDigit)
    else 0

/-- The digits behind a point, and what follows them. -/
def fraction : List Char → List Char × List Char
  | '.' :: cs => (cs.takeWhile Char.isDigit, cs.dropWhile Char.isDigit)
  | cs => ([], cs)

def unsignedFloat (cs : List Char) : Size :=
  let whole := cs.takeWhile Char.isDigit
  let behind := fraction (cs.dropWhile Char.isDigit)
  if whole = [] ∧ behind.1 = [] then none
  else some (decimalValue whole behind.1 * 10 ^ exponentOf behind.2)

/-- The number that a text begins with, as exact as it is written. -/
def parseFloat (cs : List Char) : Size :=
  match cs.dropWhile jsSpace with
  | '-' :: cs => (unsignedFloat cs).map fun q => -q
  | '+' :: cs => unsignedFloat cs
  | cs => unsignedFloat cs

end Floats

/-- What `getdiskUsage` makes of the exit code and the output of `du -sh`. -/
def getdiskUsage (exitCode : Nat) (out : List Char) : Size :=
  if exitCode ≠ 0 ∨ out = [] then none
  else
    let result := trim ((out.takeWhile fun c => decide (c ≠ '\t')).map Char.toLower)
    let total := parseFloat result.dropLast
    if result.getLast? = some 'g' then total.map fun q => q / 1024
    else if result.getLast? = some 'm' then total
    else if result.getLast? = some 'k' then total.map fun q => q / 1024
    else total

/-- A number as `du` writes it: digits, and further ones behind a point. -/
structure DuNumber where
  whole : List Char
  frac : List Char
  digits : ∀ c ∈ whole ++ frac, c.isDigit = true
  written : whole ≠ []

inductive DuUnit
  | k
  | m
  | g
  | t
deriving DecidableEq

/-- What `du -sh` says of a directory. -/
inductive DuSize
  | zero
  | sized (n : DuNumber) (unit : DuUnit)

def DuUnit.letter : DuUnit → Char
  | .k => 'K'
  | .m => 'M'
  | .g => 'G'
  | .t => 'T'

namespace DuNumber
variable (n : DuNumber)

def text : List Char := n.whole ++ if n.frac = [] then [] else '.' :: n.frac

def value : ℚ := decimalValue n.whole n.frac

end DuNumber

namespace DuSize

def text : DuSize → List Char
  | zero => ['0']
  | sized n unit => n.text ++ [unit.letter]

/-- A line of the output. -/
def output (size : DuSize) (folder : List Char) : List Char := size.text ++ '\t' :: (folder ++ ['\n'])

def megabytes : DuSize → ℚ
  | zero => 0
  | sized n .k => n.value / 1024
  | sized n .m => n.value
  | sized n .g => n.value * 1024
  | sized n .t => n.value * 1024 * 1024

/-- What is read of it: gigabytes are divided as kilobytes are, terabytes are taken for megabytes and a zero
without a unit for no number. -/
def shown : DuSize → Size
  | zero => none
  | sized n .k => some (n.value / 1024)
  | sized n .m => some n.value
  | sized n .g => some (n.value / 1024)
  | sized n .t => some n.value

end DuSize

section Reading

theorem toLower_of_isDigit {c : Char} (h : c.isDigit = true) : c.toLower = c := by
  rw [Char.isDigit, Bool.and_eq_true, decide_eq_true_iff, decide_eq_true_iff] at h
  rw [Char.toLower, dif_neg]
  rintro ⟨hupper, -⟩
  have hle : 'A'.val ≤ '9'.val := UInt32.le_trans hupper h.2
  exact absurd hle (by decide)

namespace DuNumber
variable (n : DuNumber)

theorem mem_text {c : Char} (h : c ∈ n.text) : c.isDigit = true ∨ c = '.' := by
  rcases List.mem_append.1 h with h | h
  · exact .inl (n.digits c (List.mem_append_left _ h))
  · split at h
    · cases h
    · rcases List.mem_cons.1 h with h | h
      · exact .inr h
      · exact .inl (n.digits c (List.mem_append_right _ h))

theorem text_lower : n.text.map Char.toLower = n.text := by
  have hid : ∀ c ∈ n.text, c.toLower = c := by
    intro c hc
    rcases n.mem_text hc with hc | rfl
    · exact toLower_of_isDigit hc
    · rfl
  exact (List.map_congr_left hid).trans (List.map_id _)

/-- A number is read as what it stands for. -/
theorem parseFloat_text : parseFloat n.text = some n.value := by
  obtain ⟨c, cs, hwhole⟩ := List.exists_cons_of_ne_nil n.written
  have hdigits : ∀ d ∈ n.whole, d.isDigit = true := fun d hd => n.digits d (List.mem_append_left _ hd)
  have hc : c.isDigit = true := hdigits c (hwhole ▸ List.mem_cons_self)
  have htake : n.text.takeWhile Char.isDigit = n.whole ∧ fraction (n.text.dropWhile Char.isDigit) = (n.frac, []) := by
    rw [text, List.takeWhile_append_of_pos hdigits, List.dropWhile_append_of_pos hdigits]
    by_cases hfrac : n.frac = []
    · rw [if_pos hfrac, hfrac]
      exact ⟨List.append_nil _, rfl⟩
    · rw [if_neg hfrac]
      have hpoint : ('.' : Char).isDigit = false := rfl
      have hall : ∀ d ∈ n.frac, d.isDigit = true := fun d hd => n.digits d (List.mem_append_right _ hd)
      rw [List.takeWhile_cons, List.dropWhile_cons, hpoint, if_neg Bool.false_ne_true, if_neg Bool.false_ne_true, fraction]
      refine ⟨List.append_nil _, Prod.ext ?_ ?_⟩
      · exact List.takeWhile_eq_self_iff.2 hall
      · exact List.dropWhile_eq_nil_iff.2 hall
  have hfloat : unsignedFloat n.text = some n.value := by
    rw [unsignedFloat, htake.1, htake.2]
    dsimp only
    rw [if_neg fun hnil => n.written hnil.1, value]
    simp [exponentOf]
  have hstart : n.text.dropWhile jsSpace = n.text := by
    rw [text, hwhole, List.cons_append, List.dropWhile_cons, jsSpace_of_isDigit hc, if_neg Bool.false_ne_true]
  rw [← hfloat, parseFloat, hstart]
  rw [text, hwhole, List.cons_append]
  split
  · rename_i heq
    cases heq
    cases hc
  · rename_i heq
    cases heq
    cases hc
  · rfl

end DuNumber

/-- What is read of the output of `du`. -/
theorem getdiskUsage_output (size : DuSize) (folder : List Char) :
    getdiskUsage 0 (size.output folder) = size.shown := by
  have hnonempty : size.output folder ≠ [] := by simp [DuSize.output]
  have hfirst : ∀ text : List Char, '\t' ∉ text → (text ++ '\t' :: (folder ++ ['\n'])).takeWhile
      (fun c => decide (c ≠ '\t')) = text := by
    intro text htab
    have hall : ∀ c ∈ text, decide (c ≠ '\t') = true := by
      intro c hc
      apply decide_eq_true
      rintro rfl
      exact htab hc
    rw [List.takeWhile_append_of_pos hall]
    simp
  rw [getdiskUsage, if_neg (by simp [hnonempty])]
  cases size with
  | zero =>
    rw [DuSize.output, hfirst _ (by decide)]
    rfl
  | sized n unit =>
    have htab : '\t' ∉ n.text ++ [unit.letter] := by
      rw [List.mem_append, not_or]
      refine ⟨fun hin => ?_, by cases unit <;> decide⟩
      rcases n.mem_text hin with h | h <;> cases h
    have hspace : ∀ c ∈ n.text ++ [unit.letter.toLower], jsSpace c = false := by
      intro c hc
      rcases List.mem_append.1 hc with hc | hc
      · rcases n.mem_text hc with hc | rfl
        · exact jsSpace_of_isDigit hc
        · decide
      · rw [List.mem_singleton.1 hc]
        cases unit <;> decide
    have htext : ((n.text ++ [unit.letter]).map Char.toLower) = n.text ++ [unit.letter.toLower] := by
      rw [List.map_append, n.text_lower]
      rfl
    rw [DuSize.output, DuSize.text, hfirst _ htab, htext, trim_of_no_space hspace]
    dsimp only
    rw [List.dropLast_concat, List.getLast?_concat, n.parseFloat_text]
    cases unit <;> rfl

end Reading

/-- A disk on which `du` says this of each directory. -/
def duDisk (apps_folder : List Char) (sizes : List Char → DuSize) : Disk :=
  { apps_folder := apps_folder, getDiskUsage := fun folder => getdiskUsage 0 ((sizes folder).output folder) }

/-- The sum of sizes that may not be numbers. -/
def sumSizes {α : Type} (f : α → Size) (l : List α) : Size :=
  if ∀ x ∈ l, (f x).isSome = true then some (l.map fun x => (f x).getD 0).sum else none

section Sums
variable {α : Type} {f : α → Size} {l l' : List α}

theorem sumSizes_nil : sumSizes f [] = some 0 := if_pos fun _ hx => absurd hx List.not_mem_nil

theorem sumSizes_cons (x : α) (l : List α) : sumSizes f (x :: l) = (f x).plus (sumSizes f l) := by
  cases hx : f x with
  | none =>
    rw [sumSizes, if_neg]
    · rfl
    · intro hall
      have hsome := hall x List.mem_cons_self
      rw [hx] at hsome
      cases hsome
  | some q =>
    by_cases hl : ∀ y ∈ l, (f y).isSome = true
    · rw [sumSizes, sumSizes, if_pos hl, if_pos (List.forall_mem_cons.2 ⟨by rw [hx]; rfl, hl⟩), List.map_cons,
        List.sum_cons, hx]
      rfl
    · rw [sumSizes, sumSizes, if_neg hl, if_neg fun hall => hl (List.forall_mem_cons.1 hall).2]
      rfl

theorem sumSizes_perm (h : l.Perm l') : sumSizes f l = sumSizes f l' := by
  have hall : (∀ x ∈ l, (f x).isSome = true) ↔ ∀ x ∈ l', (f x).isSome = true :=
    ⟨fun hl x hx => hl x (h.mem_iff.2 hx), fun hl x hx => hl x (h.mem_iff.1 hx)⟩
  rw [sumSizes, sumSizes, if_congr hall (congrArg some (h.map fun x => (f x).getD 0).sum_eq) rfl]

theorem plus_assoc (a b c : Size) : (a.plus b).plus c = a.plus (b.plus c) := by
  cases a with
  | none => rfl
  | some a =>
    cases b with
    | none => rfl
    | some b =>
      cases c with
      | none => rfl
      | some c => exact congrArg some (add_assoc a b c)

theorem zero_plus (a : Size) : Size.plus (some 0) a = a := by
  cases a with
  | none => rfl
  | some a => exact congrArg some (zero_add a)

/-- The loop that adds one size after the other. -/
theorem foldl_plus (a : Size) (l : List α) : l.foldl (fun total x => total.plus (f x)) a = a.plus (sumSizes f l) := by
  induction l generalizing a with
  | nil =>
    rw [sumSizes_nil]
    cases a with
    | none => rfl
    | some a => exact congrArg some (add_zero a).symm
  | cons x l ih => rw [List.foldl_cons, ih, sumSizes_cons, plus_assoc]

end Sums

namespace Store

/-- Where the home of a user is. -/
def homePath (s : Store) (apps_folder : List Char) (u : String) : List Char :=
  ((s.users.get? u).bind fun U => (s.getUserPath apps_folder U.plan u).toOption).getD []

open Classical in
/-- All users below a user. -/
noncomputable def subUsers (s : Store) (u : String) : List String :=
  s.users.keys.filter fun v => decide (Relation.TransGen s.UserUnder u v)

open Classical in
/-- The users that the traversal finds below a user. -/
noncomputable def foundUsers (s : Store) (u : String) : List String :=
  s.users.keys.filter fun v => decide (∃ o ∈ s.ownPlans u, ∃ q ∈ descend s.subs 10000000 o, v ∈ s.seats q)

/-- What the homes of a user and of all users below him take, in megabytes. -/
noncomputable def trueTotal (s : Store) (apps_folder : List Char) (sizes : List Char → DuSize) (u : String) : ℚ :=
  ((u :: s.subUsers u).map fun w => (sizes (s.homePath apps_folder w)).megabytes).sum

/-- What is read of the homes of a user and of the users that are found below him. -/
noncomputable def shownTotal (s : Store) (apps_folder : List Char) (sizes : List Char → DuSize) (u : String) : Size :=
  sumSizes (fun w => (sizes (s.homePath apps_folder w)).shown) (u :: s.foundUsers u)

/-- The pass comes to the users of a plan. -/
def Walked (s : Store) (p : String) : Prop :=
  ∃ q ∈ descend s.subs 10000000 unlimitedPlanName, ∃ u ∈ s.seats q, ∃ o ∈ s.ownPlans u, p ∈ descend s.subs 10000000 o

variable {s s' : Store}

theorem walked_iff {l : List String} (h : s.getPlansByPlanName unlimitedPlanName 10000000 = .ok l) :
    p ∈ l ↔ s.Walked p := by
  obtain ⟨users, husers, hplans⟩ := Collect.bind_ok.1 h
  obtain ⟨plans, hplans, hl⟩ := Collect.bind_ok.1 hplans
  rw [← Except.ok.inj hl, List.mem_eraseDups, Collect.mem_concatM hplans]
  have hfound : ∀ u, u ∈ users ↔ ∃ q ∈ descend s.subs 10000000 unlimitedPlanName, u ∈ s.seats q :=
    fun u => getUsersByPlanName_mem husers
  constructor
  · rintro ⟨u, hu, a, ha, hp⟩
    obtain ⟨q, hq, hseat⟩ := (hfound u).1 hu
    exact ⟨q, hq, u, hseat, (getPlansByUserName_mem ha).1 hp⟩
  · rintro ⟨q, hq, u, hseat, hp⟩
    have hu := (hfound u).2 ⟨q, hq, hseat⟩
    obtain ⟨a, ha, -⟩ := Collect.concatM_part hplans u hu
    exact ⟨u, hu, a, ha, (getPlansByUserName_mem ha).2 hp⟩

theorem root_of_walked (h : s.Walked p) : unlimitedPlanName ∈ s.plans := by
  obtain ⟨q, hq, u, hu, -⟩ := h
  rcases (below_of_mem_descend hq).cases_head with heq | ⟨r, hr, -⟩
  · exact mem_plans_of_seat (heq ▸ hu)
  · obtain ⟨v, hv, -⟩ := mem_subs.1 hr
    exact mem_plans_of_seat hv

/-- The users below a user are found once each. -/
theorem foundUsers_perm (h : Linked s) (hr : s.Ranked) (hu : u ∈ s.seats p) {l : List String}
    (hl : s.getUsersByUserName u 10000000 = .ok l) : l.Perm (s.foundUsers u) := by
  have hnodup := (List.nodup_cons.1 (h.getUsersByUserName_nodup hr hu (by decide) hl)).2
  have hnodup' : (s.foundUsers u).Nodup := s.users.keys_nodup.filter _
  rw [List.perm_ext_iff_of_nodup hnodup hnodup']
  intro v
  rw [foundUsers, List.mem_filter, decide_eq_true_iff, ← getUsersByUserName_mem hl, Dict.mem_keys]
  refine (and_iff_right_of_imp fun hv => ?_).symm
  obtain ⟨o, -, q, -, hq⟩ := (getUsersByUserName_mem hl).1 hv
  exact h.user_mem hq

/-- The sum that the pass compares with the limit. -/
theorem homeSize_eq (h : Integrity s) (hc : s.Climbs) (hr : s.Ranked) (hu : u ∈ s.seats p) (apps_folder : List Char)
    (sizes : List Char → DuSize) : s.homeSize (duDisk apps_folder sizes) u = s.shownTotal apps_folder sizes u := by
  have hone : ∀ w ∈ s.users, ∀ total, s.addHome (duDisk apps_folder sizes) total w =
      .ok (total.plus (sizes (s.homePath apps_folder w)).shown) := by
    intro w hw total
    obtain ⟨W, hW⟩ := Dict.mem_iff.1 hw
    obtain ⟨path, hpath⟩ := hc.getUserPath_total apps_folder W.plan w
    have hhome : s.homePath apps_folder w = path := by
      rw [homePath, hW, Option.bind_some, hpath]
      rfl
    have hread : (duDisk apps_folder sizes).getDiskUsage path = (sizes path).shown := getdiskUsage_output _ _
    rw [addHome, hW]
    dsimp only
    rw [show (duDisk apps_folder sizes).apps_folder = apps_folder from rfl, hpath, Collect.ok_bind, hread, hhome]
    rfl
  have hall : ∀ (l : List String) total, (∀ w ∈ l, w ∈ s.users) → l.foldlM (s.addHome (duDisk apps_folder sizes)) total =
      .ok (l.foldl (fun total w => total.plus (sizes (s.homePath apps_folder w)).shown) total) := by
    intro l
    induction l with
    | nil => exact fun _ _ => rfl
    | cons w l ih =>
      intro total hl
      rw [List.foldlM_cons, hone w (hl w List.mem_cons_self), Collect.ok_bind, List.foldl_cons]
      exact ih _ fun v hv => hl v (List.mem_cons_of_mem w hv)
  obtain ⟨l, hl⟩ := h.linked.getUsersByUserName_total 10000000 hu
  have hfound : ∀ w ∈ l, w ∈ s.users := by
    intro w hw
    obtain ⟨o, -, q, -, hq⟩ := (getUsersByUserName_mem hl).1 hw
    exact h.linked.user_mem hq
  have hperm := (foundUsers_perm h.linked hr hu hl).cons u
  rw [homeSize, getUserPathSize, hl, Collect.ok_bind, hone u (h.linked.user_mem hu), Collect.ok_bind, hall l _ hfound,
    zero_plus, foldl_plus, shownTotal, ← sumSizes_perm hperm, sumSizes_cons]
  rfl

/-- After a pass a user is marked as the pass decides, if it comes to his plan and decides anything. -/
theorem mark_after (h : Orderly s) (hc : s.Climbs) (disk : Disk) (hu : u ∈ s.seats p) :
    (s.Walked p → (s.checkQuotas disk).store.userMark u =
      ((s.checkQuotas disk).store.decision disk p u).or (s.userMark u)) ∧
    (¬s.Walked p → (s.checkQuotas disk).store.userMark u = s.userMark u) ∧
    Resuspended s (s.checkQuotas disk).store := by
  cases hroot : s.plans.get? unlimitedPlanName with
  | none =>
    have hone : (s.checkQuotas disk).store = s := by
      rw [checkQuotas.eq_def, hroot]
    rw [hone]
    exact ⟨fun hw => absurd (root_of_walked hw) (Dict.get?_eq_none.1 hroot), fun _ => rfl, .refl s⟩
  | some root =>
    obtain ⟨l, hl⟩ := h.integrity.linked.getPlansByPlanName_total 10000000 (Dict.mem_of_get? hroot)
    obtain ⟨s', b', hrun, hchecked, -⟩ := h.checkPlans hc disk hl
    have hone : (s.checkQuotas disk).store = s' := by
      rw [checkQuotas.eq_def, hroot]
      dsimp only
      rw [hl]
      dsimp only
      rw [hrun]
    rw [hone]
    refine ⟨fun hw => hchecked.decided p ((walked_iff hl).2 hw) u hu, fun hw => hchecked.others u fun q hq hin => ?_,
      hchecked.same⟩
    exact hw ((walked_iff hl).1 (h.integrity.seat_unique hu hin ▸ hq))

/-- A user over the limit is suspended after the pass, and a user below it is not. -/
structure QuotaRight (s : Store) (apps_folder : List Char) (sizes : List Char → DuSize) (u : String) (m : Int) : Prop where
  suspends : (m : ℚ) < s.trueTotal apps_folder sizes u →
    (s.checkQuotas (duDisk apps_folder sizes)).store.userMark u = some true
  spares : s.trueTotal apps_folder sizes u < m →
    (s.checkQuotas (duDisk apps_folder sizes)).store.userMark u = some false

/-- The pass comes to the plan of the user, and what is read of his homes is a number above the limit. -/
def ShownOver (s : Store) (apps_folder : List Char) (sizes : List Char → DuSize) (p u : String) (m : Int) : Prop :=
  s.Walked p ∧ ∃ q : ℚ, s.shownTotal apps_folder sizes u = some q ∧ m < q

def ShownUnder (s : Store) (apps_folder : List Char) (sizes : List Char → DuSize) (p u : String) (m : Int) : Prop :=
  s.Walked p ∧ ∃ q : ℚ, s.shownTotal apps_folder sizes u = some q ∧ q < m

theorem verdict_positive {m : Int} (hm : 0 < m) (size : Size) : verdict size (.num (.int m)) =
    size.bind fun q => if (m : ℚ) < q then some true else if q < m then some false else none := by
  have hlimited : JsVal.strictEq (.num (.int m)) defaultMaximum = false := by
    have hne : JsNum.int m ≠ .int (-1) := by
      intro heq
      have hint := JsNum.int.inj heq
      omega
    exact decide_eq_false hne
  rw [verdict, overDisk, underDisk, hlimited]
  cases size with
  | none => rfl
  | some q =>
    have hgreater : Size.greater (some q) (.num (.int m)) = decide ((m : ℚ) < q) := rfl
    have hless : Size.less (some q) (.num (.int m)) = decide (q < (m : ℚ)) := rfl
    rw [hgreater, hless, Option.bind_some]
    simp

theorem ShownOver.not_under {m : Int} {sizes : List Char → DuSize} {apps_folder : List Char}
    (h : s.ShownOver apps_folder sizes p u m) : ¬s.ShownUnder apps_folder sizes p u m := by
  obtain ⟨-, q, hq, hover⟩ := h
  rintro ⟨-, q', hq', hunder⟩
  obtain rfl := Option.some.inj (hq.symm.trans hq')
  exact lt_asymm hover hunder

section Right
variable (h : Orderly s) (hf : Forest s) (apps_folder : List Char) (sizes : List Char → DuSize) (hu : u ∈ s.seats p)
  {m : Int} (hm : 0 < m) (hlimit : s.diskLimit p = .num (.int m))
  (hfree : (s.checkQuotas (duDisk apps_folder sizes)).store.planMark p = some false)
include h hf hu hm hlimit hfree

open Classical in
/-- The mark that a user of a plan that is not suspended has after the pass. -/
theorem mark_of_free : (s.checkQuotas (duDisk apps_folder sizes)).store.userMark u =
    if s.ShownOver apps_folder sizes p u m then some true
    else if s.ShownUnder apps_folder sizes p u m then some false else s.userMark u := by
  obtain ⟨hwalked, hleft, hres⟩ := mark_after h hf.climbs (duDisk apps_folder sizes) hu
  by_cases hwalk : s.Walked p
  · have htruthy : (JsVal.num (.int m)).truthy = true := decide_eq_true (ne_of_gt hm)
    rw [hwalked hwalk, decision, hfree, hres.diskLimit, hlimit, hres.homeSize, htruthy,
      homeSize_eq h.integrity hf.climbs hf.ranked hu, if_neg (by simp), verdict_positive hm]
    have hover : s.ShownOver apps_folder sizes p u m ↔ ∃ q : ℚ, s.shownTotal apps_folder sizes u = some q ∧ m < q :=
      and_iff_right hwalk
    have hunder : s.ShownUnder apps_folder sizes p u m ↔ ∃ q : ℚ, s.shownTotal apps_folder sizes u = some q ∧ q < m :=
      and_iff_right hwalk
    cases hshown : s.shownTotal apps_folder sizes u with
    | none =>
      rw [hshown] at hover hunder
      rw [if_neg (hover.not.2 (by simp)), if_neg (hunder.not.2 (by simp))]
      rfl
    | some q =>
      rw [hshown] at hover hunder
      have hover' : s.ShownOver apps_folder sizes p u m ↔ (m : ℚ) < q := hover.trans (by simp)
      have hunder' : s.ShownUnder apps_folder sizes p u m ↔ q < (m : ℚ) := hunder.trans (by simp)
      rw [if_congr hover' rfl (if_congr hunder' rfl rfl), Option.bind_some]
      split
      · rfl
      · split <;> rfl
  · rw [hleft hwalk, if_neg fun hover => hwalk hover.1, if_neg fun hunder => hwalk hunder.1]

theorem suspended_iff : (s.checkQuotas (duDisk apps_folder sizes)).store.userMark u = some true ↔
    s.ShownOver apps_folder sizes p u m ∨ (s.userMark u = some true ∧ ¬s.ShownUnder apps_folder sizes p u m) := by
  rw [mark_of_free h hf apps_folder sizes hu hm hlimit hfree]
  split
  · rename_i hover
    exact ⟨fun _ => .inl hover, fun _ => rfl⟩
  · rename_i hover
    split
    · rename_i hunder
      simp [hover, hunder]
    · rename_i hunder
      simp [hover, hunder]

theorem unmarked_iff : (s.checkQuotas (duDisk apps_folder sizes)).store.userMark u = some false ↔
    s.ShownUnder apps_folder sizes p u m ∨ (s.userMark u = some false ∧ ¬s.ShownOver apps_folder sizes p u m) := by
  rw [mark_of_free h hf apps_folder sizes hu hm hlimit hfree]
  split
  · rename_i hover
    simp [hover, hover.not_under]
  · rename_i hover
    split
    · rename_i hunder
      exact ⟨fun _ => .inl hunder, fun _ => rfl⟩
    · rename_i hunder
      simp [hover, hunder]

/-- The pass is right about a user just when what is read of his homes is beyond the limit on the side that
they are, or decides nothing and he is marked as he should be. -/
theorem quotaRight_iff : s.QuotaRight apps_folder sizes u m ↔
    ((m : ℚ) < s.trueTotal apps_folder sizes u → s.ShownOver apps_folder sizes p u m ∨
      (s.userMark u = some true ∧ ¬s.ShownUnder apps_folder sizes p u m)) ∧
    (s.trueTotal apps_folder sizes u < m → s.ShownUnder apps_folder sizes p u m ∨
      (s.userMark u = some false ∧ ¬s.ShownOver apps_folder sizes p u m)) := by
  constructor
  · rintro ⟨hsuspends, hspares⟩
    exact ⟨fun hover => (suspended_iff h hf apps_folder sizes hu hm hlimit hfree).1 (hsuspends hover),
      fun hunder => (unmarked_iff h hf apps_folder sizes hu hm hlimit hfree).1 (hspares hunder)⟩
  · rintro ⟨hover, hunder⟩
    exact
      { suspends := fun hm' => (suspended_iff h hf apps_folder sizes hu hm hlimit hfree).2 (hover hm')
        spares := fun hm' => (unmarked_iff h hf apps_folder sizes hu hm hlimit hfree).2 (hunder hm') }

end Right

/-- Twenty and one and a half, as `du` writes them. -/
def twenty : DuNumber := { whole := ['2', '0'], frac := [], digits := List.all_eq_true.1 rfl, written := by decide }

def oneAndAHalf : DuNumber := { whole := ['1'], frac := ['5'], digits := List.all_eq_true.1 rfl, written := by decide }

theorem quotaRight_iff_sample :
    (installed.run limitedCalls).QuotaRight "/srv".toList (fun _ => .sized twenty .m) "bob" 10 ↔
      (((10 : Int) : ℚ) < (installed.run limitedCalls).trueTotal "/srv".toList (fun _ => .sized twenty .m) "bob" →
        (installed.run limitedCalls).ShownOver "/srv".toList (fun _ => .sized twenty .m) "small" "bob" 10 ∨
          ((installed.run limitedCalls).userMark "bob" = some true ∧
            ¬(installed.run limitedCalls).ShownUnder "/srv".toList (fun _ => .sized twenty .m) "small" "bob" 10)) ∧
      ((installed.run limitedCalls).trueTotal "/srv".toList (fun _ => .sized twenty .m) "bob" < ((10 : Int) : ℚ) →
        (installed.run limitedCalls).ShownUnder "/srv".toList (fun _ => .sized twenty .m) "small" "bob" 10 ∨
          ((installed.run limitedCalls).userMark "bob" = some false ∧
            ¬(installed.run limitedCalls).ShownOver "/srv".toList (fun _ => .sized twenty .m) "small" "bob" 10)) :=
  quotaRight_iff orderly_limited consistent_limited.forest "/srv".toList (fun _ => .sized twenty .m) (by decide)
    (by decide) rfl (by decide +kernel)

/-- Homes of one and a half gigabytes each leave a user with a limit of ten megabytes as he is. -/
theorem gigabytes_spared : ¬∀ (s : Store) (apps_folder : List Char) (sizes : List Char → DuSize) (p u : String) (m : Int),
    Orderly s → Forest s → u ∈ s.seats p → 0 < m → s.diskLimit p = .num (.int m) →
      (s.checkQuotas (duDisk apps_folder sizes)).store.planMark p = some false → s.QuotaRight apps_folder sizes u m := by
  intro hclaim
  have hright := hclaim (installed.run limitedCalls) "/srv".toList (fun _ => .sized oneAndAHalf .g) "small" "bob" 10
    orderly_limited consistent_limited.forest (by decide) (by decide) rfl (by decide +kernel)
  have hone : (DuSize.sized oneAndAHalf .g).megabytes = 1536 := by decide +kernel
  have hover : ((10 : Int) : ℚ) < (installed.run limitedCalls).trueTotal "/srv".toList (fun _ => .sized oneAndAHalf .g) "bob" := by
    have hrest : (0 : ℚ) ≤ ((subUsers (installed.run limitedCalls) "bob").map fun _ => (1536 : ℚ)).sum := by
      apply List.sum_nonneg
      intro x hx
      obtain ⟨w, -, rfl⟩ := List.mem_map.1 hx
      norm_num
    rw [trueTotal, hone, List.map_cons, List.sum_cons]
    push_cast
    linarith
  have hmark : ((installed.run limitedCalls).checkQuotas (duDisk "/srv".toList fun _ => .sized oneAndAHalf .g)).store.userMark
      "bob" = some false := by decide +kernel
  have hcontra := hright.suspends hover
  rw [hmark] at hcontra
  cases hcontra

end Store
end JXPanel
