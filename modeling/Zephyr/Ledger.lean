import Mathlib

/-! Books on the calls of a component. A ledger holds for a log of tagged entries when the entries of
every call, open or returned, are what the call says of itself. -/

namespace Zephyr

open Function List

inductive Tag (T : Type) where
  | thread (t : T) (k : Nat)
  | block (id : Nat)
deriving DecidableEq

variable {A T C R : Type} [DecidableEq T] {g g' : Tag T} {log : List (Tag T × A)} {l : List A}

def tagged (g : Tag T) (bytes : List A) : List (Tag T × A) := bytes.map (g, ·)

def bytesOf (g : Tag T) (log : List (Tag T × A)) : List A :=
  log.filterMap fun e => if e.1 = g then some e.2 else none

@[simp] theorem bytesOf_nil : bytesOf g ([] : List (Tag T × A)) = [] := rfl

@[simp] theorem bytesOf_append (log' : List (Tag T × A)) :
    bytesOf g (log ++ log') = bytesOf g log ++ bytesOf g log' := filterMap_append

@[simp] theorem bytesOf_tagged : bytesOf g (tagged g l) = l := by
  simp [bytesOf, tagged, filterMap_map]

theorem bytesOf_eq_nil (h : ∀ e ∈ log, e.1 ≠ g) : bytesOf g log = [] :=
  filterMap_eq_nil_iff.mpr fun e he => if_neg (h e he)

theorem bytesOf_tagged_of_ne (h : g ≠ g') : bytesOf g (tagged g' l) = [] := by
  refine bytesOf_eq_nil fun e he => ?_
  obtain ⟨x, -, rfl⟩ := mem_map.mp he
  exact Ne.symm h

omit [DecidableEq T] in
@[simp] theorem map_snd_tagged : (tagged g l).map Prod.snd = l := by
  simp [tagged, comp_def]

/-- `cur` is the tag of the call in progress, which is entered only when it pends or returns. -/
structure Ledger (okCall : C → List A → Prop) (okResult : R → List A → Prop)
    (cur : Option (Tag T)) (call : T → Option C) (made : T → Nat) (results : List (T × Nat × R))
    (blocks : Nat) (log : List (Tag T × A)) : Prop where
  opened : ∀ t c, call t = some c → okCall c (bytesOf (.thread t (made t)) log)
  result : ∀ t k r, (t, k, r) ∈ results → k < made t ∧ okResult r (bytesOf (.thread t k) log)
  known : ∀ e ∈ log, cur = some e.1 ∨ (∃ t, (call t).isSome ∧ e.1 = .thread t (made t)) ∨
    (∃ t k r, (t, k, r) ∈ results ∧ e.1 = .thread t k) ∨ ∃ id < blocks, e.1 = .block id
  apart : ∀ t k, cur = some (.thread t k) → k = made t ∧ call t = none

variable {okCall : C → List A → Prop} {okResult : R → List A → Prop} {cur : Option (Tag T)}
  {call : T → Option C} {made : T → Nat} {results : List (T × Nat × R)} {blocks id : Nat} {t : T}

theorem Ledger.append (h : Ledger okCall okResult cur call made results blocks log)
    (hcall : ∀ t, (call t).isSome → Tag.thread t (made t) ≠ g)
    (hres : ∀ t k r, (t, k, r) ∈ results → Tag.thread t k ≠ g)
    (hg : cur = some g ∨ ∃ id < blocks, g = .block id) :
    Ledger okCall okResult cur call made results blocks (log ++ tagged g l) := by
  refine ⟨fun t c hc => ?_, fun t k r hr => ?_, fun e he => ?_, h.apart⟩
  · rw [bytesOf_append, bytesOf_tagged_of_ne (hcall t (by simp [hc])), append_nil]
    exact h.opened t c hc
  · rw [bytesOf_append, bytesOf_tagged_of_ne (hres t k r hr), append_nil]
    exact h.result t k r hr
  · rcases mem_append.mp he with he | he
    · exact h.known e he
    · obtain ⟨x, -, rfl⟩ := mem_map.mp he
      exact hg.imp id fun hb => .inr (.inr hb)

theorem Ledger.append_cur (h : Ledger okCall okResult (some g) call made results blocks log) :
    Ledger okCall okResult (some g) call made results blocks (log ++ tagged g l) := by
  refine h.append (fun t ht he => ?_) (fun t k r hr he => ?_) (.inl rfl)
  · simp [(h.apart t _ (congrArg some he.symm)).2] at ht
  · have := (h.apart t k (congrArg some he.symm)).1
    have := (h.result t k r hr).1
    omega

section

variable (h : Ledger okCall okResult cur call made results blocks log)
include h

theorem Ledger.append_block (hid : id < blocks) :
    Ledger okCall okResult cur call made results blocks (log ++ tagged (.block id) l) :=
  h.append (fun _ _ => by simp) (fun _ _ _ _ => by simp) (.inr ⟨id, hid, rfl⟩)

theorem Ledger.append_call {c d : C} (ht : call t = some c)
    (hc : okCall d (bytesOf (.thread t (made t)) log ++ l)) :
    Ledger okCall okResult cur (update call t (some d)) made results blocks
      (log ++ tagged (.thread t (made t)) l) := by
  have hsome : ∀ x, (update call t (some d) x).isSome ↔ (call x).isSome := by
    intro x
    by_cases hx : x = t
    · subst hx
      simp [ht]
    · simp [hx]
  refine ⟨fun x b hb => ?_, fun x k r hr => ?_, fun e he => ?_, fun x k hk => ?_⟩
  · by_cases hx : x = t
    · subst hx
      rw [update_self] at hb
      rw [bytesOf_append, bytesOf_tagged, ← Option.some.inj hb]
      exact hc
    · rw [update_of_ne hx] at hb
      rw [bytesOf_append, bytesOf_tagged_of_ne (by simp [hx]), append_nil]
      exact h.opened x b hb
  · have hlt := (h.result x k r hr).1
    rw [bytesOf_append, bytesOf_tagged_of_ne, append_nil]
    · exact h.result x k r hr
    · intro he
      injection he with hx hk
      subst hx
      omega
  · simp only [hsome]
    rcases mem_append.mp he with he | he
    · exact h.known e he
    · obtain ⟨x, -, rfl⟩ := mem_map.mp he
      exact .inr (.inl ⟨t, by simp [ht], rfl⟩)
  · obtain ⟨h1, h2⟩ := h.apart x k hk
    have hx : x ≠ t := by
      rintro rfl
      simp [ht] at h2
    exact ⟨h1, by rw [update_of_ne hx, h2]⟩

theorem Ledger.update_call {c d : C}
    (ht : call t = some c) (hc : okCall d (bytesOf (.thread t (made t)) log)) :
    Ledger okCall okResult cur (update call t (some d)) made results blocks log := by
  have := h.append_call (l := []) ht (by rwa [append_nil])
  rwa [tagged, map_nil, append_nil] at this

end

section

variable (h : Ledger okCall okResult none call made results blocks log) (ht : call t = none)

include h ht

theorem Ledger.bytesOf_next : bytesOf (.thread t (made t)) log = [] := by
  refine bytesOf_eq_nil fun e he heq => ?_
  rcases h.known e he with hf | ⟨x, hx, hf⟩ | ⟨x, k, r, hr, hf⟩ | ⟨_, -, hf⟩
  · cases hf
  · obtain ⟨rfl, -⟩ : t = x ∧ made t = made x := by simpa [heq] using hf
    simp [ht] at hx
  · have hlt := (h.result x k r hr).1
    obtain ⟨rfl, rfl⟩ : t = x ∧ made t = k := by simpa [heq] using hf
    exact absurd hlt (Nat.lt_irrefl _)
  · simp [heq] at hf

theorem Ledger.start :
    Ledger okCall okResult (some (.thread t (made t))) call made results blocks log := by
  refine ⟨h.opened, h.result, fun e he => .inr ((h.known e he).resolve_left (by simp)), ?_⟩
  intro x k hk
  obtain ⟨rfl, rfl⟩ : t = x ∧ made t = k := by simpa using hk
  exact ⟨rfl, ht⟩

end

theorem Ledger.pend (h : Ledger okCall okResult (some (.thread t (made t))) call made results blocks
    log) {c : C} (hc : okCall c (bytesOf (.thread t (made t)) log)) :
    Ledger okCall okResult none (update call t (some c)) made results blocks log := by
  refine ⟨fun x d hd => ?_, h.result, fun e he => .inr ?_, fun _ _ hf => by cases hf⟩
  · by_cases hx : x = t
    · subst hx
      rw [update_self] at hd
      exact Option.some.inj hd ▸ hc
    · rw [update_of_ne hx] at hd
      exact h.opened x d hd
  · rcases h.known e he with hf | ⟨x, hx, hf⟩ | hf
    · exact .inl ⟨t, by simp, (Option.some.inj hf).symm⟩
    · refine .inl ⟨x, ?_, hf⟩
      by_cases hxt : x = t
      · simp [hxt]
      · simpa [hxt] using hx
    · exact .inr hf

theorem Ledger.resume (h : Ledger okCall okResult none call made results blocks log) {c : C}
    (ht : call t = some c) : Ledger okCall okResult (some (.thread t (made t)))
      (update call t none) made results blocks log := by
  refine ⟨fun x d hd => ?_, h.result, fun e he => ?_, ?_⟩
  · by_cases hx : x = t
    · simp [hx] at hd
    · rw [update_of_ne hx] at hd
      exact h.opened x d hd
  · rcases h.known e he with hf | ⟨x, hx, hf⟩ | hf
    · cases hf
    · by_cases hxt : x = t
      · subst hxt
        exact .inl (congrArg some hf.symm)
      · exact .inr (.inl ⟨x, by simpa [hxt] using hx, hf⟩)
    · exact .inr (.inr hf)
  · intro x k hk
    obtain ⟨rfl, rfl⟩ : t = x ∧ made t = k := by simpa using hk
    exact ⟨rfl, update_self _ _ _⟩

theorem Ledger.next (h : Ledger okCall okResult cur call made results blocks log)
    (ht : call t = none) {o : Option R}
    (hcur : ∀ g, cur = some g → g = .thread t (made t) ∧ o.isSome)
    (hnew : ∀ r, o = some r → okResult r (bytesOf (.thread t (made t)) log)) :
    Ledger okCall okResult none call (update made t (made t + 1))
      (results ++ o.toList.map fun r => (t, made t, r)) blocks log := by
  have hmade : ∀ x, (call x).isSome → update made t (made t + 1) x = made x := by
    intro x hx
    refine update_of_ne ?_ _ _
    rintro rfl
    simp [ht] at hx
  refine ⟨fun x c hc => ?_, fun x k q hq => ?_, fun e he => .inr ?_, fun _ _ hf => by cases hf⟩
  · rw [hmade x (by simp [hc])]
    exact h.opened x c hc
  · rcases mem_append.mp hq with hq | hq
    · obtain ⟨hlt, hok⟩ := h.result x k q hq
      refine ⟨?_, hok⟩
      by_cases hx : x = t
      · subst hx
        rw [update_self]
        omega
      · rwa [update_of_ne hx]
    · obtain ⟨r, hr, heq⟩ := mem_map.mp hq
      obtain ⟨rfl, rfl, rfl⟩ : t = x ∧ made t = k ∧ r = q := by simpa using heq
      exact ⟨by simp, hnew r (by simpa using hr)⟩
  · rcases h.known e he with hf | ⟨x, hx, hf⟩ | ⟨x, k, q, hq, hf⟩ | hf
    · obtain ⟨hg, hsome⟩ := hcur e.1 hf
      obtain ⟨r, rfl⟩ := Option.isSome_iff_exists.mp hsome
      exact .inr (.inl ⟨t, made t, r, by simp, hg⟩)
    · exact .inl ⟨x, hx, by rw [hmade x hx]; exact hf⟩
    · exact .inr (.inl ⟨x, k, q, by simp [hq], hf⟩)
    · exact .inr (.inr hf)

theorem Ledger.finish (h : Ledger okCall okResult (some (.thread t (made t))) call made results blocks
    log) {r : R} (hr : okResult r (bytesOf (.thread t (made t)) log)) :
    Ledger okCall okResult none (update call t none)
      (update made t (made t + 1)) (results ++ [(t, made t, r)]) blocks log := by
  have ht : call t = none := (h.apart t _ rfl).2
  have hcall : update call t none = call := by rw [← ht, update_eq_self]
  rw [hcall]
  refine h.next ht (o := some r) (fun g hg => ⟨(Option.some.inj hg).symm, rfl⟩) ?_
  rintro _ ⟨⟩
  exact hr

section

variable (h : Ledger okCall okResult none call made results blocks log)
include h

theorem Ledger.skip (ht : call t = none) : Ledger okCall okResult none call
      (update made t (made t + 1)) results blocks log := by
  have := h.next ht (o := none) (fun g hg => by cases hg) fun r hr => by cases hr
  simpa using this

theorem Ledger.bytesOf_nextBlock : bytesOf (.block blocks) log = [] := by
  refine bytesOf_eq_nil fun e he heq => ?_
  rcases h.known e he with hf | ⟨x, -, hf⟩ | ⟨x, k, r, -, hf⟩ | ⟨id, hid, hf⟩
  · cases hf
  · simp [heq] at hf
  · simp [heq] at hf
  · obtain rfl : blocks = id := by simpa [heq] using hf
    exact absurd hid (Nat.lt_irrefl _)

theorem Ledger.startBlock :
    Ledger okCall okResult (some (.block id)) call made results (blocks + 1) log := by
  refine ⟨h.opened, h.result, fun e he => .inr ?_, fun _ _ hf => by simp at hf⟩
  rcases h.known e he with hf | hf | hf | ⟨i, hi, hf⟩
  · cases hf
  · exact .inl hf
  · exact .inr (.inl hf)
  · exact .inr (.inr ⟨i, by omega, hf⟩)

end

theorem Ledger.finishBlock
    (h : Ledger okCall okResult (some (.block id)) call made results blocks log)
    (hid : id < blocks) : Ledger okCall okResult none call made results blocks log := by
  refine ⟨h.opened, h.result, fun e he => .inr ?_, fun _ _ hf => by cases hf⟩
  rcases h.known e he with hf | hf
  · exact .inr (.inr ⟨id, hid, (Option.some.inj hf).symm⟩)
  · exact hf

end Zephyr
