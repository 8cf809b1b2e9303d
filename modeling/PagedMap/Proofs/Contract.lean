import Mathlib
import PagedMap.Proofs.Positions

/-!
# What both policies promise

Whatever a policy is told from the start on, it keeps to its capacity, takes in each page that is
added, and lets go of a page only when it is told to or when it needs the room for a new one
(`Policy.Honours`).  So a key that came in is tracked, or was removed or evicted once since it came
in last (`Policy.Balanced`): a key comes in, leaves, or is not concerned, and each of these keeps
the balance.

Main statement: `Policy.Course.contract_run`.
-/

namespace PagedMap

variable {ω : Type}

namespace Policy

/-- What happens to a key. -/
inductive Turn where
  | entered (key : PageKey)
  | removed (key : PageKey)
  | evicted (key : PageKey)
  deriving DecidableEq

/-- The key to which it happens. -/
def Turn.key : Turn → PageKey
  | entered key | removed key | evicted key => key

/-! ### What one call does -/

/-- A page with this key is tracked. -/
def Tracks (p : Policy ω) (key : PageKey) : Prop := ∃ x ∈ p.pages, x.key = key

instance (p : Policy ω) (key : PageKey) : Decidable (p.Tracks key) :=
  inferInstanceAs (Decidable (∃ x ∈ p.pages, x.key = key))

variable {p : Policy ω} {page : Page ω} {key : PageKey}

theorem tracks_congr {p' : Policy ω} (h : p'.pages = p.pages) (key : PageKey) :
    p'.Tracks key ↔ p.Tracks key := by rw [Tracks, Tracks, h]

theorem not_tracks : ¬ p.Tracks key ↔ ∀ x ∈ p.pages, x.key ≠ key := by
  simp [Tracks]

/-- A removal makes the policy forget one key. -/
theorem tracks_remove (hv : p.Valid) (removed key : PageKey) :
    (p.remove removed).Tracks key ↔ p.Tracks key ∧ key ≠ removed := by
  constructor
  · rintro ⟨x, hx, rfl⟩
    obtain ⟨hmem, hne⟩ := (mem_pages_remove hv).1 hx
    exact ⟨⟨x, hmem, rfl⟩, hne⟩
  · rintro ⟨⟨x, hx, rfl⟩, hne⟩
    exact ⟨x, (mem_pages_remove hv).2 ⟨hx, hne⟩, rfl⟩

/-- What adding a page that is not tracked does. -/
structure TakesIn (p : Policy ω) (page : Page ω) (p' : Policy ω) (evicted : Option (Page ω)) :
    Prop where
  tracks : p'.Tracks page.key
  /-- Exactly a full policy evicts a page. -/
  full : evicted.isSome ↔ p.size = p.capacity
  victim : ∀ v ∈ evicted, v ∈ p.pages ∧ v.key ≠ page.key ∧ ¬ p'.Tracks v.key
  /-- Other keys are not concerned. -/
  other : ∀ key, key ≠ page.key → (∀ v ∈ evicted, v.key ≠ key) → (p'.Tracks key ↔ p.Tracks key)

theorem Valid.takesIn (hv : p.Valid) (hnew : ¬ p.Tracks page.key) :
    p.TakesIn page (p.add page).1 (p.add page).2 := by
  rw [not_tracks] at hnew
  have hmem := fun x => mem_pages_add (x := x) hv hnew
  obtain ⟨hvalid, -, hplace⟩ := add_of_not_mem hv hnew
  have hvictim : ∀ v ∈ (p.add page).2, v ∈ p.pages := fun v hsome => victim_mem_pages hv hnew hsome
  constructor
  · refine ⟨page, (hmem page).2 ⟨Or.inl rfl, fun hsome => ?_⟩, rfl⟩
    exact hnew page (hvictim page hsome) rfl
  · rcases hplace with ⟨hroom, hnone, -⟩ | ⟨hfull, v, -, hsome, -⟩
    · simp [hnone, Nat.ne_of_lt hroom]
    · simp [hsome, hfull]
  · intro v hsome
    refine ⟨hvictim v hsome, hnew v (hvictim v hsome), ?_⟩
    rintro ⟨x, hx, hkey⟩
    obtain ⟨rfl | hold, hne⟩ := (hmem x).1 hx
    · exact hnew v (hvictim v hsome) hkey.symm
    · have heq : x = v := List.inj_on_of_nodup_map hv.keys hold (hvictim v hsome) hkey
      exact hne (heq ▸ hsome)
  · intro key hkey hother
    constructor
    · rintro ⟨x, hx, rfl⟩
      obtain ⟨rfl | hold, -⟩ := (hmem x).1 hx
      · exact absurd rfl hkey
      · exact ⟨x, hold, rfl⟩
    · rintro ⟨x, hx, rfl⟩
      exact ⟨x, (hmem x).2 ⟨Or.inr hx, fun hsome => hother x hsome rfl⟩, rfl⟩

/-- The contract of a policy of which a capacity was requested. -/
structure Honours (requested : Nat) (p : Policy ω) : Prop where
  capacity : p.capacity = max requested 1
  size_le : p.size ≤ p.capacity
  size_eq : p.size = (p.pages.map (·.key)).toFinset.card
  /-- Adding a page that is not tracked makes it tracked, for one of the others if the policy is
  full. -/
  add : ∀ page, ¬ p.Tracks page.key →
    p.TakesIn page (p.answer (.add page)).1 (p.answer (.add page)).2
  /-- Adding a page that is tracked evicts nothing. -/
  add_again : ∀ page, p.Tracks page.key → (p.answer (.add page)).2 = none ∧
    ∀ key, (p.answer (.add page)).1.Tracks key ↔ p.Tracks key
  hit : ∀ used, (p.answer (.hit used)).2 = none ∧
    ∀ key, (p.answer (.hit used)).1.Tracks key ↔ p.Tracks key
  /-- A removal makes the policy forget the key and nothing else. -/
  remove : ∀ removed, (p.answer (.remove removed)).2 = none ∧
    ∀ key, (p.answer (.remove removed)).1.Tracks key ↔ p.Tracks key ∧ key ≠ removed

theorem Valid.honours (hv : p.Valid) {requested : Nat} (hcapacity : p.capacity = max requested 1) :
    p.Honours requested where
  capacity := hcapacity
  size_le := hv.size_le
  size_eq := by rw [List.toFinset_card_of_nodup hv.keys, List.length_map, size]
  add _ hnew := hv.takesIn hnew
  add_again _ htracks :=
    ⟨(add_of_mem htracks).1, tracks_congr (add_of_mem htracks).2.1⟩
  hit used := ⟨rfl, tracks_congr (p.pages_hit used)⟩
  remove removed := ⟨rfl, tracks_remove hv removed⟩

theorem Valid.answer (hv : p.Valid) (call : Call ω) :
    (p.answer call).1.Valid ∧ (p.answer call).1.capacity = p.capacity := by
  cases call with
  | add page => exact ⟨(hv.add page).1, (hv.add page).2.1⟩
  | hit key => exact ⟨hv.hit key, p.capacity_hit key⟩
  | remove key => exact ⟨hv.remove key, p.capacity_remove key⟩

/-! ### The turns of keys -/

/-- What happens to keys in a call, the latest first. -/
def turns (p : Policy ω) : Call ω → List Turn
  | .add page =>
    if p.Tracks page.key then []
    else .entered page.key :: ((p.add page).2.map fun v => .evicted v.key).toList
  | .hit _ => []
  | .remove key => if p.Tracks key then [.removed key] else []

/-- What happened since the key entered last. -/
def since (log : List Turn) (key : PageKey) : List Turn := log.takeWhile (· ≠ .entered key)

/-- A key that entered is tracked, or was removed or evicted once since; nothing happened to any
other key. -/
def Balanced (log : List Turn) (key : PageKey) (tracked : Bool) : Prop :=
  if .entered key ∈ log then
    (since log key).count (.removed key) + (since log key).count (.evicted key) +
      tracked.toNat = 1
  else tracked = false ∧ .removed key ∉ log ∧ .evicted key ∉ log

section Balance

variable {log : List Turn} {turn : Turn} {tracked : Bool}

theorem Balanced.entered (h : Balanced log key true) : .entered key ∈ log := by
  by_contra hnot
  rw [Balanced, if_neg hnot] at h
  exact Bool.noConfusion h.1

theorem balanced_enter (log : List Turn) (key : PageKey) :
    Balanced (.entered key :: log) key true := by
  simp [Balanced, since]

theorem Balanced.leave (h : Balanced log key true)
    (hturn : turn = .removed key ∨ turn = .evicted key) : Balanced (turn :: log) key false := by
  have hmem := h.entered
  rw [Balanced, if_pos hmem] at h
  rw [Balanced, if_pos (List.mem_cons_of_mem _ hmem)]
  rcases hturn with rfl | rfl <;> simp [since] at h ⊢ <;> omega

/-- What happens to another key does not matter. -/
theorem Balanced.other (h : Balanced log key tracked) (hkey : turn.key ≠ key) :
    Balanced (turn :: log) key tracked := by
  have hentered : turn ≠ .entered key := fun heq => hkey (heq ▸ rfl)
  have hremoved : turn ≠ .removed key := fun heq => hkey (heq ▸ rfl)
  have hevicted : turn ≠ .evicted key := fun heq => hkey (heq ▸ rfl)
  simpa [Balanced, since, hentered, hremoved, hevicted, Ne.symm hentered, Ne.symm hremoved,
    Ne.symm hevicted] using h

end Balance

/-! ### Call after call -/

/-- A policy and what happened to keys, the latest first. -/
structure Course (ω : Type) where
  policy : Policy ω
  log : List Turn := []

namespace Course

variable {s : Course ω} {calls : List (Call ω)}

def step (s : Course ω) (call : Call ω) : Course ω :=
  ⟨(s.policy.answer call).1, s.policy.turns call ++ s.log⟩

def run (s : Course ω) (calls : List (Call ω)) : Course ω := calls.foldl step s

/-- The policy tells what happened to every key. -/
def AllBalanced (s : Course ω) : Prop :=
  ∀ key, Balanced s.log key (decide (s.policy.Tracks key))

theorem AllBalanced.entered (h : s.AllBalanced) (htracks : s.policy.Tracks key) :
    .entered key ∈ s.log := by
  have hkey := h key
  rw [decide_eq_true htracks] at hkey
  exact hkey.entered

theorem AllBalanced.congr {p : Policy ω} (h : s.AllBalanced)
    (htracks : ∀ key, p.Tracks key ↔ s.policy.Tracks key) : AllBalanced ⟨p, s.log⟩ := by
  intro key
  rw [decide_eq_decide.2 (htracks key)]
  exact h key

/-- A new page comes in, and one that has to leave for it was tracked. -/
theorem AllBalanced.admit {page : Page ω} (h : s.AllBalanced) (hnew : ¬ s.policy.Tracks page.key)
    (htakes : s.policy.TakesIn page (s.policy.add page).1 (s.policy.add page).2) :
    (s.step (.add page)).AllBalanced := by
  intro key
  have hlog : (s.step (.add page)).log = .entered page.key ::
      (((s.policy.add page).2.map fun v => Turn.evicted v.key).toList ++ s.log) := by
    simp [step, turns, hnew]
  have hpolicy : (s.step (.add page)).policy = (s.policy.add page).1 := rfl
  rw [hlog, hpolicy]
  by_cases hkey : page.key = key
  · rw [← hkey, decide_eq_true htakes.tracks]
    exact balanced_enter _ _
  refine Balanced.other ?_ hkey
  cases hvictim : (s.policy.add page).2 with
  | none =>
    rw [decide_eq_decide.2 (htakes.other key (Ne.symm hkey) (by simp [hvictim]))]
    exact h key
  | some v =>
    obtain ⟨hmem, -, hgone⟩ := htakes.victim v hvictim
    -- the key is that of the victim, or nothing happens to it
    by_cases hv : v.key = key
    · have hold : s.policy.Tracks key := ⟨v, hmem, hv⟩
      have hbalance := h key
      rw [decide_eq_true hold] at hbalance
      rw [← hv, decide_eq_false hgone, hv]
      exact hbalance.leave (Or.inr (congrArg Turn.evicted hv))
    · have hother : ∀ w ∈ (s.policy.add page).2, w.key ≠ key := by
        rw [hvictim]
        rintro w ⟨rfl⟩
        exact hv
      rw [decide_eq_decide.2 (htakes.other key (Ne.symm hkey) hother)]
      exact (h key).other hv

/-- A tracked key leaves when it is removed. -/
theorem AllBalanced.remove {removed : PageKey} (h : s.AllBalanced) (hv : s.policy.Valid)
    (htracks : s.policy.Tracks removed) : (s.step (.remove removed)).AllBalanced := by
  have hstep : s.step (.remove removed) = ⟨s.policy.remove removed, .removed removed :: s.log⟩ := by
    simp [step, answer, turns, htracks]
  rw [hstep]
  intro key
  by_cases hkey : removed = key
  · subst hkey
    have hgone : ¬ (s.policy.remove removed).Tracks removed := fun hstill =>
      ((tracks_remove hv removed removed).1 hstill).2 rfl
    have hbalance := h removed
    rw [decide_eq_true htracks] at hbalance
    rw [decide_eq_false hgone]
    exact hbalance.leave (Or.inl rfl)
  · have hsame : (s.policy.remove removed).Tracks key ↔ s.policy.Tracks key := by
      rw [tracks_remove hv]
      exact and_iff_left (Ne.symm hkey)
    rw [decide_eq_decide.2 hsame]
    exact (h key).other hkey

theorem AllBalanced.step (h : s.AllBalanced) (hv : s.policy.Valid) (call : Call ω) :
    (s.step call).AllBalanced := by
  cases call with
  | add page =>
    by_cases htracks : s.policy.Tracks page.key
    · have hstep : s.step (.add page) = ⟨(s.policy.add page).1, s.log⟩ := by
        simp [Course.step, answer, turns, htracks]
      rw [hstep]
      exact h.congr (tracks_congr (add_of_mem htracks).2.1)
    · exact h.admit htracks (hv.takesIn htracks)
  | hit used => exact h.congr (tracks_congr (s.policy.pages_hit used))
  | remove removed =>
    by_cases htracks : s.policy.Tracks removed
    · exact h.remove hv htracks
    · have hstep : s.step (.remove removed) = ⟨s.policy.remove removed, s.log⟩ := by
        simp [Course.step, answer, turns, htracks]
      rw [hstep]
      refine h.congr fun key => (tracks_remove hv removed key).trans (and_iff_left_of_imp ?_)
      rintro hkey rfl
      exact htracks hkey

/-- What every call keeps. -/
structure InContract (requested : Nat) (s : Course ω) : Prop where
  valid : s.policy.Valid
  capacity : s.policy.capacity = max requested 1
  balanced : s.AllBalanced

theorem InContract.step {requested : Nat} (h : s.InContract requested) (call : Call ω) :
    (s.step call).InContract requested :=
  ⟨(h.valid.answer call).1, (h.valid.answer call).2.trans h.capacity, h.balanced.step h.valid call⟩

theorem InContract.run {requested : Nat} (h : s.InContract requested) (calls : List (Call ω)) :
    (s.run calls).InContract requested := by
  induction calls generalizing s with
  | nil => exact h
  | cons call later ih => exact ih (h.step call)

theorem InContract.entered {requested : Nat} (h : s.InContract requested) {page : Page ω}
    (hcall : .add page ∈ calls) : .entered page.key ∈ (s.run calls).log := by
  have hsuffix : ∀ (s : Course ω) (calls : List (Call ω)), s.log <:+ (s.run calls).log := by
    intro s calls
    induction calls generalizing s with
    | nil => exact List.suffix_refl _
    | cons call later ih => exact (List.suffix_append _ _).trans (ih (s.step call))
  induction calls generalizing s with
  | nil => exact absurd hcall (List.not_mem_nil)
  | cons call later ih =>
    rcases List.mem_cons.1 hcall with rfl | hlater
    · refine (hsuffix _ later).subset ?_
      by_cases htracks : s.policy.Tracks page.key
      · exact List.mem_append_right _ (h.balanced.entered htracks)
      · simp [Course.step, turns, htracks]
    · exact ih (h.step call) hlater

end Course

/-! ### From the start on -/

/-- The two policies, and what the draws of the second start from. -/
inductive Kind where
  | clock
  | lottery (seed : UInt64)

/-- A policy that did not track any page yet. -/
def Kind.policy (kind : Kind) (requested : Nat) : Policy ω :=
  match kind with
  | clock => .clock (.empty requested)
  | lottery seed => .lottery (.empty requested seed)

/-- A policy that remembers positions and did not track any page yet. -/
def Kind.indexed (kind : Kind) (requested : Nat) : Indexed ω :=
  match kind with
  | clock => .clock (.empty requested)
  | lottery seed => .lottery (.empty requested seed)

/-- The policy after calls, if every slot or position that was used exists. -/
def Indexed.run? (x : Indexed ω) : List (Call ω) → Option (Indexed ω)
  | [] => some x
  | call :: later => (x.answer? call).bind fun out => out.1.run? later

theorem Indexed.InStep.run?_spec {x : Indexed ω} (h : x.InStep) {s : Course ω}
    (hs : x.forget = s.policy) (calls : List (Call ω)) :
    ∃ x', x.run? calls = some x' ∧ x'.forget = (s.run calls).policy ∧ x'.InStep := by
  induction calls generalizing x s with
  | nil => exact ⟨x, rfl, hs, h⟩
  | cons call later ih =>
    obtain ⟨x₁, hanswer, hforget, hstep⟩ := h.answer?_spec call
    obtain ⟨x₂, hrun, hforget, hstep⟩ := ih hstep (s := s.step call) (by rw [hforget, hs]; rfl)
    exact ⟨x₂, by rw [run?, hanswer, Option.bind_some, hrun], hforget, hstep⟩

/-- Both policies, whatever capacity was requested and whatever they were told, keep the contract in
the next call, and every key that came in is tracked, or was removed or evicted once since.  The
policy that remembers positions used existing ones only, counts the same pages, and gives the same
answer to the next call. -/
theorem Course.contract_run (kind : Kind) (requested : Nat) (calls : List (Call ω)) :
    let s := ({ policy := kind.policy requested } : Course ω).run calls
    s.policy.Honours requested ∧ s.AllBalanced ∧
      (∀ page, .add page ∈ calls → .entered page.key ∈ s.log) ∧
      ∃ x, (kind.indexed requested).run? calls = some x ∧ x.forget = s.policy ∧
        x.size = s.policy.size ∧
        ∀ call, ∃ x', x.answer? call = some (x', (s.policy.answer call).2) := by
  have hfresh : (kind.policy requested : Policy ω).Fresh := by
    cases kind with
    | clock => exact .clock requested
    | lottery seed => exact .lottery requested seed
  have hcapacity : (kind.policy requested : Policy ω).capacity = max requested 1 := by
    cases kind <;> rfl
  have hstart : ({ policy := kind.policy requested } : Course ω).InContract requested := by
    refine ⟨hfresh.valid, hcapacity, fun key => ?_⟩
    simp [Balanced, Tracks, hfresh.pages_eq]
  have hindexed : (kind.indexed requested : Indexed ω).InStep ∧
      (kind.indexed requested : Indexed ω).forget = kind.policy requested := by
    cases kind with
    | clock => exact ⟨Clock.Indexed.inStep_empty requested, rfl⟩
    | lottery seed => exact ⟨Lottery.Indexed.inStep_empty requested seed, rfl⟩
  intro s
  have hcontract : s.InContract requested := hstart.run calls
  obtain ⟨x, hrun, hforget, hstep⟩ :=
    hindexed.1.run?_spec (s := { policy := kind.policy requested }) hindexed.2 calls
  refine ⟨hcontract.valid.honours hcontract.capacity, hcontract.balanced,
    fun page hcall => hstart.entered hcall, x, hrun, hforget, ?_, fun call => ?_⟩
  · rw [hstep.size_eq, hforget]
  · obtain ⟨x', hanswer, -⟩ := hstep.answer?_spec call
    rw [hforget] at hanswer
    exact ⟨x', hanswer⟩

end Policy

end PagedMap
