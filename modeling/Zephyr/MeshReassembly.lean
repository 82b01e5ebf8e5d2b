import Zephyr.MeshSeg

/-! The segments of a message, received in any order among those of others. While the message is
collected no segment of another touches its context; it is handed on when its last segment
arrives. -/

namespace Zephyr.Mesh

open List Option

variable {c : SegRx} {ctxs : List SegRx} {i : Nat} {q : SegRx → Bool}

theorem find?_zipIdx_eq_some
    (h : ctxs.zipIdx.find? (fun ci => q ci.1) = some (c, i)) : ctxs[i]? = some c ∧ q c = true :=
  ⟨mem_zipIdx_iff_getElem?.mp (mem_of_find?_eq_some h),
    find?_some (p := fun ci : SegRx × Nat => q ci.1) h⟩

theorem find?_zipIdx_eq_none (h : ctxs.zipIdx.find? (fun ci => q ci.1) = none)
    (hc : ctxs[i]? = some c) : q c = false := by
  have := find?_eq_none.mp h (c, i) (mem_zipIdx_iff_getElem?.mpr hc)
  simpa using this

theorem getElem?_set_cases {i j : Nat} {a b : SegRx}
    (h : (ctxs.set i a)[j]? = some b) : j = i ∧ b = a ∨ j ≠ i ∧ ctxs[j]? = some b := by
  rw [getElem?_set] at h
  split at h
  · next hij =>
    split at h
    · exact .inl ⟨hij.symm, (some.inj h).symm⟩
    · cases h
  · next hij => exact .inr ⟨fun hji => hij hji.symm, h⟩

theorem segRxFind_cases (ctxs : List SegRx) (src dst : Addr) (auth : Nat) :
    (segRxFind ctxs src dst auth = (ctxs, none) ∧
      ∀ (i : Nat) c, ctxs[i]? = some c → comesUpon src dst auth c = false) ∨
    ∃ (c : SegRx) (i : Nat), ctxs[i]? = some c ∧ comesUpon src dst auth c = true ∧
      (c.seqAuth = auth ∧ segRxFind ctxs src dst auth = (ctxs, some (c, i)) ∨
        c.seqAuth ≠ auth ∧ segRxFind ctxs src dst auth = (ctxs.set i (segRxReset c), none)) := by
  unfold segRxFind
  split
  · next h => exact .inl ⟨rfl, fun i c hc => find?_zipIdx_eq_none h hc⟩
  · next c i h =>
    obtain ⟨hc, hq⟩ := find?_zipIdx_eq_some h
    refine .inr ⟨c, i, hc, hq, ?_⟩
    split
    · next hauth => exact .inl ⟨hauth, rfl⟩
    · next hauth => exact .inr ⟨hauth, rfl⟩

variable {auth : Nat} {src dst : Addr}

theorem comesUpon_iff : comesUpon src dst auth c = true ↔
    c.src = src ∧ c.dst = dst ∧ (c.seqAuth = auth ∨ c.inUse = true) := by
  simp [comesUpon, and_assoc]

def HasKey (c : SegRx) (src dst : Addr) (auth : Nat) : Prop :=
  c.src = src ∧ c.dst = dst ∧ c.seqAuth = auth

theorem segRxFind_eq_some {ctxs ctxs' : List SegRx} {auth i : Nat}
    (h : segRxFind ctxs src dst auth = (ctxs', some (c, i))) :
    ctxs' = ctxs ∧ ctxs[i]? = some c ∧ HasKey c src dst auth := by
  rcases segRxFind_cases ctxs src dst auth with ⟨hf, -⟩ | ⟨_, _, hc, hupon, ⟨hauth, hf⟩ | ⟨-, hf⟩⟩
  · cases (Prod.mk.inj (hf.symm.trans h)).2
  · obtain ⟨h1, h2⟩ := Prod.mk.inj (hf.symm.trans h)
    obtain ⟨rfl, rfl⟩ := Prod.mk.inj (some.inj h2)
    obtain ⟨hsrc, hdst, -⟩ := comesUpon_iff.mp hupon
    exact ⟨h1.symm, hc, hsrc, hdst, hauth⟩
  · cases (Prod.mk.inj (hf.symm.trans h)).2

variable {h : SegHead}

theorem place_hasKey (hc : HasKey c src dst auth) : HasKey (place c h).1 src dst auth := by
  unfold place
  dsimp only
  split <;> exact hc

theorem storeSegment_hasKey {max : Nat}
    (hc : HasKey c src dst auth) : HasKey (storeSegment max c h).1 src dst auth := by
  unfold storeSegment
  split
  · exact hc
  split
  · dsimp only
    split
    · exact hc
    · exact place_hasKey hc
  split
  · exact hc
  · exact place_hasKey hc

variable {cfg : Config} {max : Nat} {s s' : RxNode} {rx : NetRx}

theorem openContext_cases (hopen : openContext max s.ctxs rx auth h = (ctxs, .inr (c, i))) :
    HasKey c rx.pdu.src rx.dst auth ∧
      (segRxFind s.ctxs rx.pdu.src rx.dst auth = (ctxs, some (c, i)) ∧ c.inUse = true ∨
        segRxFind s.ctxs rx.pdu.src rx.dst auth = (ctxs, none) ∧
          ∃ c₀, ctxs[i]? = some c₀ ∧ c₀.inUse = false) := by
  unfold openContext at hopen
  split at hopen
  · next ctxs' c' i' hfind =>
    split at hopen
    · cases (Prod.mk.inj hopen).2
    split at hopen
    · next huse =>
      obtain ⟨rfl, h2⟩ := Prod.mk.inj hopen
      obtain ⟨rfl, rfl⟩ := Prod.mk.inj (Sum.inr.inj h2)
      exact ⟨(segRxFind_eq_some hfind).2.2, .inl ⟨hfind, huse⟩⟩
    split at hopen <;> cases (Prod.mk.inj hopen).2
  · next ctxs' hfind =>
    split at hopen
    · cases (Prod.mk.inj hopen).2
    split at hopen
    · cases (Prod.mk.inj hopen).2
    · next c' i' halloc =>
      obtain ⟨rfl, h2⟩ := Prod.mk.inj hopen
      obtain ⟨rfl, rfl⟩ := Prod.mk.inj (Sum.inr.inj h2)
      obtain ⟨⟨c₀, _⟩, hfree, heq⟩ := map_eq_some_iff.mp halloc
      obtain ⟨rfl, rfl⟩ := Prod.mk.inj heq
      have hfree := find?_zipIdx_eq_some (q := fun c => !c.inUse) hfree
      exact ⟨⟨rfl, rfl, rfl⟩, .inr ⟨hfind, c₀, hfree.1, by simpa using hfree.2⟩⟩

inductive ContextStep (ctxs : List SegRx) (src dst : Addr) (auth : Nat) : List SegRx → Prop
  | same : ContextStep ctxs src dst auth ctxs
  | cleared {ctxs₁ : List SegRx} (hfind : segRxFind ctxs src dst auth = (ctxs₁, none)) :
      ContextStep ctxs src dst auth ctxs₁
  | refill {c c' : SegRx} {i : Nat} (hfind : segRxFind ctxs src dst auth = (ctxs, some (c, i)))
      (huse : c.inUse = true) (hkey : HasKey c' src dst auth) :
      ContextStep ctxs src dst auth (ctxs.set i c')
  | alloc {ctxs₁ : List SegRx} {c c' : SegRx} {i : Nat}
      (hfind : segRxFind ctxs src dst auth = (ctxs₁, none)) (hc : ctxs₁[i]? = some c)
      (hfree : c.inUse = false) (hkey : HasKey c' src dst auth) :
      ContextStep ctxs src dst auth (ctxs₁.set i c')

theorem openContext_error {r : SegResult}
    (hopen : openContext max s.ctxs rx auth h = (ctxs, .inl r)) :
    ContextStep s.ctxs rx.pdu.src rx.dst auth ctxs := by
  unfold openContext at hopen
  split at hopen
  · next ctxs' c i hfind =>
    have hctxs : ctxs = ctxs' := by
      split at hopen
      · exact (Prod.mk.inj hopen).1.symm
      split at hopen
      · exact (Prod.mk.inj hopen).1.symm
      split at hopen <;> exact (Prod.mk.inj hopen).1.symm
    rw [hctxs, (segRxFind_eq_some hfind).1]
    exact .same
  · next ctxs' hfind =>
    refine .cleared (hfind.trans ?_)
    split at hopen
    · rw [(Prod.mk.inj hopen).1]
    split at hopen
    · rw [(Prod.mk.inj hopen).1]
    · cases (Prod.mk.inj hopen).2

theorem ContextStep.of_open {c c' : SegRx}
    (hopen : openContext max s.ctxs rx auth h = (ctxs, .inr (c, i)))
    (hkey : HasKey c' rx.pdu.src rx.dst auth) :
    ContextStep s.ctxs rx.pdu.src rx.dst auth (ctxs.set i c') := by
  obtain ⟨-, ⟨hfind, huse⟩ | ⟨hfind, _, hc₀, hfree⟩⟩ := openContext_cases hopen
  · obtain rfl := (segRxFind_eq_some hfind).1
    exact .refill hfind huse hkey
  · exact .alloc hfind hc₀ hfree hkey

theorem transSegWith_contextStep (auth : Nat) (h : SegHead) :
    ContextStep s.ctxs rx.pdu.src rx.dst auth (transSegWith max s rx auth h).1.ctxs := by
  unfold transSegWith
  split
  · next hopen => exact openContext_error hopen
  next ctxs c i hopen =>
  have hkey : HasKey (storeSegment max c h).1 rx.pdu.src rx.dst auth :=
    storeSegment_hasKey (openContext_cases hopen).1
  generalize storeSegment max c h = out at hkey ⊢
  obtain ⟨_, r⟩ := out
  cases r with
  | complete sdu =>
    dsimp only [finish]
    split
    · split
      · exact .of_open hopen hkey
      · exact .of_open hopen hkey
    · exact .of_open hopen hkey
  | _ => exact .of_open hopen hkey

theorem transSeg_contextStep (max : Nat) (s : RxNode) (rx : NetRx) :
    (transSeg max s rx).1.ctxs = s.ctxs ∨ ∃ auth, rx.auth s.replay.net = some auth ∧
      ContextStep s.ctxs rx.pdu.src rx.dst auth (transSeg max s rx).1.ctxs := by
  unfold transSeg
  split
  · exact .inl rfl
  next h hh =>
  split
  · exact .inl rfl
  · exact .inr ⟨_, by rw [NetRx.auth, hh]; rfl, transSegWith_contextStep _ h⟩

namespace Sdu

variable {X : Sdu} {k : Nat} {ctxs ctxs' : List SegRx}

def Sole (X : Sdu) (ctxs : List SegRx) : Prop :=
  ∀ (i j : Nat) c c', ctxs[i]? = some c → ctxs[j]? = some c' →
    comesUpon X.src X.dst X.auth c = true → comesUpon X.src X.dst X.auth c' = true → i = j

def Unknown (X : Sdu) (ctxs : List SegRx) : Prop :=
  ∀ (i : Nat) c, ctxs[i]? = some c → ¬ HasKey c X.src X.dst X.auth

theorem Sole.set (h : X.Sole ctxs) {a : SegRx}
    (ha : comesUpon X.src X.dst X.auth a = true → ∀ (j : Nat) c, ctxs[j]? = some c →
      comesUpon X.src X.dst X.auth c = true → j = i) : X.Sole (ctxs.set i a) := by
  intro j₁ j₂ c₁ c₂ h₁ h₂ hc₁ hc₂
  rcases getElem?_set_cases h₁ with ⟨rfl, rfl⟩ | ⟨-, hi₁⟩
  · rcases getElem?_set_cases h₂ with ⟨hi₂, -⟩ | ⟨-, hi₂⟩
    · exact hi₂.symm
    · exact (ha hc₁ _ _ hi₂ hc₂).symm
  · rcases getElem?_set_cases h₂ with ⟨rfl, rfl⟩ | ⟨-, hi₂⟩
    · exact ha hc₂ _ _ hi₁ hc₁
    · exact h _ _ _ _ hi₁ hi₂ hc₁ hc₂

theorem Unknown.set (h : X.Unknown ctxs) {a : SegRx}
    (ha : ¬ HasKey a X.src X.dst X.auth) : X.Unknown (ctxs.set i a) := by
  intro j c hc
  rcases getElem?_set_cases hc with ⟨-, rfl⟩ | ⟨-, hc⟩
  · exact ha
  · exact h j c hc

def Waits (X : Sdu) (ctxs : List SegRx) : Prop := X.Unknown ctxs ∧ X.Sole ctxs

theorem Waits.upon_iff (h : X.Waits ctxs) (hc : ctxs[i]? = some c) :
    comesUpon X.src X.dst X.auth c = true ↔ c.src = X.src ∧ c.dst = X.dst ∧ c.inUse = true := by
  rw [comesUpon_iff]
  refine and_congr_right fun hsrc => and_congr_right fun hdst => ?_
  exact or_iff_right fun hauth => h.1 i c hc ⟨hsrc, hdst, hauth⟩

theorem Waits.reset (h : X.Waits ctxs) (hc : ctxs[i]? = some c) :
    X.Waits (ctxs.set i (segRxReset c)) := by
  have hkey := h.1 i c hc
  refine ⟨h.1.set hkey, h.2.set fun hupon => ?_⟩
  rw [comesUpon_iff] at hupon
  obtain ⟨hsrc, hdst, hauth | huse⟩ := hupon
  · exact absurd ⟨hsrc, hdst, hauth⟩ hkey
  · cases huse

theorem Waits.cleared (h : X.Waits ctxs)
    (hfind : segRxFind ctxs src dst auth = (ctxs', none)) : X.Waits ctxs' := by
  rcases segRxFind_cases ctxs src dst auth with ⟨hf, -⟩ | ⟨c, i, hc, -, ⟨-, hf⟩ | ⟨-, hf⟩⟩
  · exact (Prod.mk.inj (hf.symm.trans hfind)).1 ▸ h
  · cases (Prod.mk.inj (hf.symm.trans hfind)).2
  · exact (Prod.mk.inj (hf.symm.trans hfind)).1 ▸ h.reset hc

theorem Waits.none_inUse (h : X.Waits ctxs)
    (hfind : segRxFind ctxs X.src X.dst auth = (ctxs', none))
    (hc : ctxs'[i]? = some c) : comesUpon X.src X.dst X.auth c = false := by
  refine Bool.eq_false_iff.mpr fun hupon => ?_
  obtain ⟨hsrc, hdst, huse⟩ := ((h.cleared hfind).upon_iff hc).mp hupon
  rcases segRxFind_cases ctxs X.src X.dst auth with ⟨hf, hnone⟩ |
    ⟨c', i', hc', hupon', ⟨-, hf⟩ | ⟨hne, hf⟩⟩
  · obtain rfl := (Prod.mk.inj (hf.symm.trans hfind)).1
    have := hnone i c hc
    simp [comesUpon, hsrc, hdst, huse] at this
  · cases (Prod.mk.inj (hf.symm.trans hfind)).2
  · obtain rfl := (Prod.mk.inj (hf.symm.trans hfind)).1
    obtain ⟨hsrc', hdst', huse'⟩ := comesUpon_iff.mp hupon'
    rcases getElem?_set_cases hc with ⟨-, rfl⟩ | ⟨hne', hc⟩
    · cases huse
    · exact hne' (h.2 i i' c c' hc hc' ((h.upon_iff hc).mpr ⟨hsrc, hdst, huse⟩)
        ((h.upon_iff hc').mpr ⟨hsrc', hdst', huse'.resolve_left hne⟩))

theorem Waits.step (h : X.Waits ctxs) (hother : ¬ (src = X.src ∧ dst = X.dst ∧ auth = X.auth))
    (hstep : ContextStep ctxs src dst auth ctxs') : X.Waits ctxs' := by
  have hne : ∀ {c'}, HasKey c' src dst auth → ¬ HasKey c' X.src X.dst X.auth :=
    fun ⟨hsrc, hdst, hauth⟩ ⟨h1, h2, h3⟩ =>
      hother ⟨hsrc.symm.trans h1, hdst.symm.trans h2, hauth.symm.trans h3⟩
  cases hstep with
  | same => exact h
  | cleared hfind => exact h.cleared hfind
  | @refill c c' i hfind huse hkey =>
    obtain ⟨-, hc, hsrc, hdst, -⟩ := segRxFind_eq_some hfind
    refine ⟨h.1.set (hne hkey), h.2.set fun hupon j c'' hc'' hupon'' => ?_⟩
    obtain ⟨h1, h2, -⟩ := comesUpon_iff.mp hupon
    refine h.2 j i c'' c hc'' hc hupon'' ((h.upon_iff hc).mpr ⟨?_, ?_, huse⟩)
    · rw [hsrc, ← hkey.1, h1]
    · rw [hdst, ← hkey.2.1, h2]
  | @alloc ctxs₁ c c' i hfind hc hfree hkey =>
    have hw := h.cleared hfind
    refine ⟨hw.1.set (hne hkey), hw.2.set fun hupon j c'' hc'' hupon'' => ?_⟩
    obtain ⟨h1, h2, -⟩ := comesUpon_iff.mp hupon
    obtain rfl : src = X.src := hkey.1.symm.trans h1
    obtain rfl : dst = X.dst := hkey.2.1.symm.trans h2
    exact absurd hupon'' (by simp [h.none_inUse hfind hc''])

structure CollectsAt (X : Sdu) (ctxs : List SegRx) (i : Nat) (c : SegRx) (G : Nat → Prop) :
    Prop where
  at_pos : ctxs[i]? = some c
  holds : X.Holds c G
  sole : X.Sole ctxs

variable {i : Nat} {c : SegRx} {G : Nat → Prop}

theorem Holds.comesUpon (h : X.Holds c G) : comesUpon X.src X.dst X.auth c = true :=
  comesUpon_iff.mpr ⟨h.src, h.dst, .inl h.auth⟩

theorem CollectsAt.step (h : X.CollectsAt ctxs i c G) (hother : ¬ (src = X.src ∧ dst = X.dst))
    (hstep : ContextStep ctxs src dst auth ctxs') : X.CollectsAt ctxs' i c G := by
  have hset : ∀ {ctxs₁ : List SegRx}, X.CollectsAt ctxs₁ i c G → ∀ {j : Nat} {c₀ a : SegRx},
      ctxs₁[j]? = some c₀ → (c₀.src = src ∧ c₀.dst = dst ∨ c₀.inUse = false) →
      a.src = src → a.dst = dst → X.CollectsAt (ctxs₁.set j a) i c G := by
    intro ctxs₁ h₁ j c₀ a hc₀ hold hsrc hdst
    have hij : j ≠ i := by
      rintro rfl
      cases hc₀.symm.trans h₁.at_pos
      rcases hold with ⟨h1, h2⟩ | hfree
      · exact hother ⟨h1.symm.trans h.holds.src, h2.symm.trans h.holds.dst⟩
      · exact absurd h.holds.inUse (by simp [hfree])
    refine ⟨?_, h₁.holds, h₁.sole.set fun hupon => ?_⟩
    · rw [getElem?_set_ne hij]
      exact h₁.at_pos
    · obtain ⟨h1, h2, -⟩ := comesUpon_iff.mp hupon
      exact absurd ⟨hsrc.symm.trans h1, hdst.symm.trans h2⟩ hother
  have hcleared : ∀ {ctxs₁ : List SegRx}, segRxFind ctxs src dst auth = (ctxs₁, none) →
      X.CollectsAt ctxs₁ i c G := by
    intro ctxs₁ hfind
    rcases segRxFind_cases ctxs src dst auth with ⟨hf, -⟩ | ⟨_, j, hc', hupon, ⟨-, hf⟩ | ⟨-, hf⟩⟩
    · exact (Prod.mk.inj (hf.symm.trans hfind)).1 ▸ h
    · cases (Prod.mk.inj (hf.symm.trans hfind)).2
    · obtain ⟨hsrc, hdst, -⟩ := comesUpon_iff.mp hupon
      exact (Prod.mk.inj (hf.symm.trans hfind)).1 ▸ hset h hc' (.inl ⟨hsrc, hdst⟩) hsrc hdst
  cases hstep with
  | same => exact h
  | cleared hfind => exact hcleared hfind
  | refill hfind huse hkey =>
    obtain ⟨-, hc, hsrc, hdst, -⟩ := segRxFind_eq_some hfind
    exact hset h hc (.inl ⟨hsrc, hdst⟩) hkey.1 hkey.2.1
  | alloc hfind hc hfree hkey => exact hset (hcleared hfind) hc (.inr hfree) hkey.1 hkey.2.1

/-- A segment finds the place of a context that holds the segments in `G`. -/
def Opens (X : Sdu) (max : Nat) (ctxs : List SegRx) (rx : NetRx) (k : Nat) (G : Nat → Prop) :
    Prop :=
  ∃ ctxs₁ c i, openContext max ctxs rx X.auth (X.head k) = (ctxs₁, .inr (c, i)) ∧ X.Holds c G ∧
    ∀ c' G', X.Holds c' G' → X.CollectsAt (ctxs₁.set i c') i c' G'

theorem Waits.find (h : X.Waits ctxs) : ∃ ctxs₁, segRxFind ctxs X.src X.dst X.auth = (ctxs₁, none) ∧
      ((∃ c ∈ ctxs, c.inUse = false) → ∃ (i : Nat) (c : SegRx), ctxs₁[i]? = some c ∧
        c.inUse = false) := by
  rcases segRxFind_cases ctxs X.src X.dst X.auth with ⟨hf, -⟩ |
    ⟨c, i, hc, hupon, ⟨hauth, hf⟩ | ⟨-, hf⟩⟩
  · refine ⟨ctxs, hf, fun ⟨c, hc, hfree⟩ => ?_⟩
    obtain ⟨i, hi⟩ := getElem?_of_mem hc
    exact ⟨i, c, hi, hfree⟩
  · obtain ⟨hsrc, hdst, -⟩ := comesUpon_iff.mp hupon
    exact absurd ⟨hsrc, hdst, hauth⟩ (h.1 i c hc)
  · refine ⟨_, hf, fun _ => ⟨i, segRxReset c, ?_, rfl⟩⟩
    rw [getElem?_set_self]
    exact (List.getElem?_eq_some_iff.mp hc).1

theorem Waits.opens (h : X.Waits ctxs) (hk : X.Segment k rx) (hmax : X.bytes.length ≤ max)
    (hfree : ∃ c ∈ ctxs, c.inUse = false) : X.Opens max ctxs rx k fun _ => False := by
  obtain ⟨ctxs₁, hfind, hfree₁⟩ := h.find
  obtain ⟨j, d, hd, hdfree⟩ := hfree₁ hfree
  have hok : sduLenIsOk max rx.ctl (X.head k).segN = true := by
    have : X.segN * segLen X.ctl < X.bytes.length := X.mul_lt_iff.mpr (Nat.le_refl _)
    rw [hk.ctl]
    exact decide_eq_true (show X.segN * segLen X.ctl + 1 ≤ max by omega)
  have hsome : (ctxs₁.zipIdx.find? fun ci => !ci.1.inUse).isSome := by
    rw [find?_isSome]
    exact ⟨(d, j), mem_zipIdx_iff_getElem?.mpr hd, by simp [hdfree]⟩
  obtain ⟨⟨c, i⟩, hci⟩ := isSome_iff_exists.mp hsome
  have hc := (find?_zipIdx_eq_some (q := fun c => !c.inUse) hci).1
  refine ⟨ctxs₁, newContext c rx X.auth (X.head k), i, ?_, newContext_holds hk c,
    fun c' G' h' => ?_⟩
  · rw [openContext, hk.src, hk.dst, hfind]
    dsimp only
    rw [hok, segRxAlloc, hci]
    rfl
  · refine ⟨?_, h', (h.cleared hfind).2.set fun _ j c'' hc'' hupon => ?_⟩
    · exact getElem?_set_self (List.getElem?_eq_some_iff.mp hc).1
    · exact absurd hupon (by simp [h.none_inUse hfind hc''])

theorem CollectsAt.opens (h : X.CollectsAt ctxs i c G) (hk : X.Segment k rx) :
    X.Opens max ctxs rx k G := by
  have hfind : segRxFind ctxs X.src X.dst X.auth = (ctxs, some (c, i)) := by
    rcases segRxFind_cases ctxs X.src X.dst X.auth with ⟨-, hnone⟩ | ⟨c', i', hc', hupon, hf⟩
    · exact absurd h.holds.comesUpon (by simp [hnone i c h.at_pos])
    · obtain rfl := h.sole i' i c' c hc' h.at_pos hupon h.holds.comesUpon
      cases hc'.symm.trans h.at_pos
      rcases hf with ⟨-, hf⟩ | ⟨hne, -⟩
      · exact hf
      · exact absurd h.holds.auth hne
  have hvalid : segRxIsValid c rx (X.head k) = true := by
    simp [segRxIsValid, h.holds.hdr, h.holds.segN, h.holds.src, h.holds.dst, h.holds.ctl, hk.src,
      hk.dst, hk.ctl, Sdu.head]
  refine ⟨ctxs, c, i, ?_, h.holds, fun c' G' h' =>
    ⟨?_, h', h.sole.set fun _ j c'' hc'' hupon => ?_⟩⟩
  · rw [openContext, hk.src, hk.dst, hfind]
    dsimp only
    rw [hvalid, if_neg (by simp), if_pos h.holds.inUse]
  · exact getElem?_set_self (List.getElem?_eq_some_iff.mp h.at_pos).1
  · exact h.sole j i c'' c hc'' h.at_pos hupon h.holds.comesUpon

theorem transSeg_segment (hk : X.Segment k rx) (hp : rx.pdu.Current s.replay.net) :
    transSeg max s rx = transSegWith max s rx X.auth (X.head k) := by
  have hle : ¬ (X.head k).segN < (X.head k).segO := Nat.not_lt.mpr hk.le
  rw [transSeg, hk.head]
  dsimp only
  rw [if_neg hle, iviRx_eq hp]
  exact congrArg (transSegWith max s rx · (X.head k)) hk.seqAuth

theorem Opens.again (h : X.Opens max s.ctxs rx k G) (hk : X.Segment k rx) (hG : G k) :
    (∃ i c, X.CollectsAt (transSegWith max s rx X.auth (X.head k)).1.ctxs i c G) ∧
      (transSegWith max s rx X.auth (X.head k)).1.handed = s.handed := by
  obtain ⟨_, c, i, hopen, hc, hset⟩ := h
  rw [transSegWith, hopen]
  dsimp only
  rw [hc.store_of_mem hk.le hG]
  exact ⟨⟨i, c, hset c G hc⟩, rfl⟩

theorem Opens.store (h : X.Opens max s.ctxs rx k G) (hk : X.Segment k rx) (hG : ¬ G k)
    (hle : ∀ j, G j → j ≤ X.segN) (hmax : X.bytes.length ≤ max)
    (hpass : (∀ j ≤ X.segN, G j ∨ j = k) → (checkReplay s.replay rx.pdu).1 = false) :
    ((∀ j ≤ X.segN, G j ∨ j = k) ∧ (transSegWith max s rx X.auth (X.head k)).1.handed =
        s.handed ++ [⟨rx.pdu, X.auth, X.bytes⟩]) ∨
      (¬ ∀ j ≤ X.segN, G j ∨ j = k) ∧
        (∃ i c, X.CollectsAt (transSegWith max s rx X.auth (X.head k)).1.ctxs i c
          fun j => G j ∨ j = k) ∧
        (transSegWith max s rx X.auth (X.head k)).1.handed = s.handed := by
  obtain ⟨_, c, i, hopen, hc, hset⟩ := h
  obtain ⟨c', hc', hstore⟩ := hc.store hk.le hG hmax
  have hle' : ∀ j, G j ∨ j = k → j ≤ X.segN := fun j hj => hj.elim (hle j) (· ▸ hk.le)
  have hiff := hc'.block_eq_iff hle'
  rw [transSegWith, hopen]
  dsimp only
  rw [hstore]
  by_cases hall : ∀ j ≤ X.segN, G j ∨ j = k
  · refine .inl ⟨hall, ?_⟩
    rw [if_neg (not_not.mpr (hiff.mpr hall)), hc'.sdu_eq hall]
    dsimp only [finish]
    rw [if_pos hk.localMatch, hpass hall, if_neg (by simp)]
  · refine .inr ⟨hall, ?_⟩
    rw [if_pos fun heq => hall (hiff.mp heq)]
    exact ⟨⟨i, c', hset c' _ hc'⟩, rfl⟩

section

variable (X : Sdu) (s : RxNode)

def Got (k : Nat) : Prop := ∃ rx ∈ s.arrived, X.Segment k rx

def Complete : Prop := ∀ k ≤ X.segN, X.Got s k

def Collecting : Prop := (∃ k, X.Got s k) ∧ ¬ X.Complete s

def isHanded (h : Handed) : Bool :=
  decide (h.pdu.src = X.src) && decide (h.auth = X.auth)

def handedOn : List (List Byte) :=
  (s.handed.filter X.isHanded).map Handed.sdu

/-- The message is not disturbed: its SeqAuth is its own, and while it is collected the source sends
nothing else to the destination and no timer expires; there is a context for it; its last segment is
not told for a replay. -/
def Calm : RxAct → Prop
  | .seg rx =>
    (rx.pdu.src = X.src → rx.auth s.replay.net = some X.auth → ∃ k, X.Segment k rx) ∧
    (X.Collecting s → rx.pdu.src = X.src → rx.dst = X.dst → ∃ k, X.Segment k rx) ∧
    ((∃ k, X.Segment k rx) → ¬ (∃ k, X.Got s k) → ∃ c ∈ s.ctxs, c.inUse = false) ∧
    ∀ k, X.Segment k rx → ¬ X.Complete s → (∀ j ≤ X.segN, X.Got s j ∨ j = k) →
      (checkReplay s.replay rx.pdu).1 = false
  | .expire _ => ¬ X.Collecting s
  | .rxReset => ¬ X.Collecting s
  | _ => True

end

inductive Stage (X : Sdu) (s : RxNode) : Prop
  | waits (hgot : ¬ ∃ k, X.Got s k) (hw : X.Waits s.ctxs) (hhanded : X.handedOn s = [])
  | collects (hcollecting : X.Collecting s) (i : Nat) (c : SegRx)
      (hc : X.CollectsAt s.ctxs i c (X.Got s)) (hhanded : X.handedOn s = [])
  | done (hall : X.Complete s) (hhanded : X.handedOn s = [X.bytes])

theorem Stage.setReplay (h : X.Stage s) (replay : Node) : X.Stage { s with replay } := by
  cases h with
  | waits hgot hw hhanded => exact .waits hgot hw hhanded
  | collects hcollecting i c hc hhanded => exact .collects hcollecting i c hc hhanded
  | done hall hhanded => exact .done hall hhanded

theorem Waits.mono (h : X.Waits ctxs)
    (hle : ∀ (i : Nat) c', ctxs'[i]? = some c' → ∃ c, ctxs[i]? = some c ∧
      (c'.src = X.src → c.src = c'.src ∧ c.dst = c'.dst ∧ c.seqAuth = c'.seqAuth ∧
        (c'.inUse = true → c.inUse = true))) : X.Waits ctxs' := by
  refine ⟨fun i c' hc' hkey => ?_, fun i j c₁ c₂ h₁ h₂ hu₁ hu₂ => ?_⟩
  · obtain ⟨c, hc, hsame⟩ := hle i c' hc'
    obtain ⟨h1, h2, h3, -⟩ := hsame hkey.1
    exact h.1 i c hc ⟨h1.trans hkey.1, h2.trans hkey.2.1, h3.trans hkey.2.2⟩
  · obtain ⟨d₁, hd₁, hs₁⟩ := hle i c₁ h₁
    obtain ⟨d₂, hd₂, hs₂⟩ := hle j c₂ h₂
    rw [comesUpon_iff] at hu₁ hu₂
    obtain ⟨a1, a2, a3, a4⟩ := hs₁ hu₁.1
    obtain ⟨b1, b2, b3, b4⟩ := hs₂ hu₂.1
    refine h.2 i j d₁ d₂ hd₁ hd₂ (comesUpon_iff.mpr ?_) (comesUpon_iff.mpr ?_)
    · exact ⟨a1.trans hu₁.1, a2.trans hu₁.2.1, hu₁.2.2.imp a3.trans a4⟩
    · exact ⟨b1.trans hu₂.1, b2.trans hu₂.2.1, hu₂.2.2.imp b3.trans b4⟩

theorem Stage.mono (h : X.Stage s) (hnot : ¬ X.Collecting s)
    (hle : ∀ (i : Nat) c', ctxs'[i]? = some c' → ∃ c, s.ctxs[i]? = some c ∧
      (c'.src = X.src → c.src = c'.src ∧ c.dst = c'.dst ∧ c.seqAuth = c'.seqAuth ∧
        (c'.inUse = true → c.inUse = true))) : X.Stage { s with ctxs := ctxs' } := by
  cases h with
  | waits h1 h2 h3 => exact .waits h1 (h2.mono hle) h3
  | collects h1 => exact absurd h1 hnot
  | done h1 h2 => exact .done h1 h2

theorem handedOn_append {h : Handed} {handed : List Handed} (hs : s.handed = handed ++ [h]) :
    X.handedOn s = (handed.filter X.isHanded).map Handed.sdu ++
      if X.isHanded h then [h.sdu] else [] := by
  rw [handedOn, hs, filter_append]
  cases hb : X.isHanded h <;> simp [hb]

theorem isHanded_iff {h : Handed} : X.isHanded h = true ↔ h.pdu.src = X.src ∧ h.auth = X.auth := by
  simp [isHanded]

def after (max : Nat) (s : RxNode) (rx : NetRx) : RxNode :=
  { (transSeg max s rx).1 with arrived := s.arrived ++ [rx] }

theorem got_after (hk : X.Segment k rx) : X.Got (after max s rx) = fun j => X.Got s j ∨ j = k := by
  funext j
  rw [Got, after, eq_iff_iff]
  simp only [mem_append, mem_singleton]
  constructor
  · rintro ⟨r, hr | rfl, hj⟩
    · exact .inl ⟨r, hr, hj⟩
    · exact .inr (hj.unique hk)
  · rintro (⟨r, hr, hj⟩ | rfl)
    · exact ⟨r, .inl hr, hj⟩
    · exact ⟨rx, .inr rfl, hk⟩

theorem got_after_other (hother : ¬ ∃ k, X.Segment k rx) : X.Got (after max s rx) = X.Got s := by
  funext j
  rw [Got, after, eq_iff_iff]
  simp only [mem_append, mem_singleton]
  constructor
  · rintro ⟨r, hr | rfl, hj⟩
    · exact ⟨r, hr, hj⟩
    · exact absurd ⟨j, hj⟩ hother
  · rintro ⟨r, hr, hj⟩
    exact ⟨r, .inl hr, hj⟩

theorem Got.le (h : X.Got s k) : k ≤ X.segN := by
  obtain ⟨_, -, hk⟩ := h
  exact hk.le

theorem Stage.other (h : X.Stage s) (hcalm : X.Calm s (.seg rx))
    (hother : ¬ ∃ k, X.Segment k rx) : X.Stage (after max s rx) := by
  have hgot : X.Got (after max s rx) = X.Got s := got_after_other hother
  have hon : X.handedOn (after max s rx) = X.handedOn s := by
    rcases transSeg_handed max s rx with ⟨_, hs⟩ | ⟨-, _, _, hs, rfl | ⟨auth, _, hon, rfl⟩⟩
      <;> rw [after, hs]
    · rfl
    · rfl
    · rw [handedOn_append rfl, if_neg, append_nil, handedOn]
      rw [isHanded_iff]
      rintro ⟨hsrc, hauth⟩
      exact hother (hcalm.1 hsrc (hon.eq_auth.trans (congrArg some hauth)))
  have hstep := transSeg_contextStep max s rx
  cases h with
  | waits h1 h2 h3 =>
    refine .waits (hgot ▸ h1) ?_ (hon.trans h3)
    rcases hstep with hsame | ⟨auth, hauth, hstep⟩
    · exact hsame ▸ h2
    · refine h2.step ?_ hstep
      rintro ⟨hsrc, -, rfl⟩
      exact hother (hcalm.1 hsrc hauth)
  | collects h1 i c h2 h3 =>
    refine .collects (by rwa [Collecting, Complete, hgot]) i c ?_ (hon.trans h3)
    rw [hgot]
    rcases hstep with hsame | ⟨auth, hauth, hstep⟩
    · exact hsame ▸ h2
    · exact h2.step (fun ⟨hsrc, hdst⟩ => hother (hcalm.2.1 h1 hsrc hdst)) hstep
  | done h1 h2 => exact .done (by rwa [Complete, hgot]) (hon.trans h2)

theorem Stage.opened (hon : X.handedOn s = []) (hnot : ¬ X.Complete s)
    (hopens : X.Opens max s.ctxs rx k (X.Got s)) (hk : X.Segment k rx)
    (hp : rx.pdu.Current s.replay.net) (hcalm : X.Calm s (.seg rx))
    (hmax : X.bytes.length ≤ max) : X.Stage (after max s rx) := by
  have hgot : X.Got (after max s rx) = fun j => X.Got s j ∨ j = k := got_after hk
  have hseg : transSeg max s rx = _ := transSeg_segment hk hp
  have hsome : ∃ j, X.Got (after max s rx) j := ⟨k, by rw [hgot]; exact .inr rfl⟩
  by_cases hG : X.Got s k
  · have hsame : X.Got (after max s rx) = X.Got s := by
      rw [hgot]
      funext j
      exact propext ⟨fun h => h.elim id (· ▸ hG), .inl⟩
    obtain ⟨⟨i, c, hc⟩, hhanded⟩ := hopens.again hk hG
    rw [← hseg] at hc hhanded
    refine .collects ⟨hsome, by rwa [Complete, hsame]⟩ i c (by rwa [hsame]) ?_
    rw [after, hhanded]
    exact hon
  · rcases hopens.store hk hG (fun _ => Got.le) hmax (hcalm.2.2.2 k hk hnot) with
      ⟨hall, hhanded⟩ | ⟨hmiss, ⟨i, c, hc⟩, hhanded⟩
    · rw [← hseg] at hhanded
      refine .done (by rwa [Complete, hgot]) ?_
      rw [handedOn_append (s := after max s rx) hhanded, if_pos (isHanded_iff.mpr ⟨hk.src, rfl⟩)]
      show X.handedOn s ++ [X.bytes] = _
      rw [hon]
      rfl
    · rw [← hseg] at hc hhanded
      refine .collects ⟨hsome, by rwa [Complete, hgot]⟩ i c (by rwa [hgot]) ?_
      rw [after, hhanded]
      exact hon

theorem Stage.segment (h : X.Stage s) (honce : OnceOnly s) (hk : X.Segment k rx)
    (hp : rx.pdu.Current s.replay.net) (htime : InTime s (.seg rx)) (hcalm : X.Calm s (.seg rx))
    (hmax : X.bytes.length ≤ max) : X.Stage (after max s rx) := by
  cases h with
  | waits h1 h2 h3 =>
    have hgot : X.Got s = fun _ => False := by
      funext j
      exact eq_false fun hj => h1 ⟨j, hj⟩
    have hnot : ¬ X.Complete s := fun hall => h1 ⟨0, hall 0 (Nat.zero_le _)⟩
    exact .opened h3 hnot (hgot ▸ h2.opens hk hmax (hcalm.2.2.1 ⟨k, hk⟩ h1)) hk hp hcalm hmax
  | collects h1 i c h2 h3 => exact .opened h3 h1.2 (h2.opens hk) hk hp hcalm hmax
  | done h1 h2 =>
    have hall : X.Complete (after max s rx) := fun j hj => by
      rw [got_after hk]
      exact .inl (h1 j hj)
    refine .done hall (Eq.trans ?_ h2)
    rcases transSeg_handed max s rx with ⟨_, hs⟩ | ⟨hlocal, _, _, hs, rfl | ⟨_, _, hon, rfl⟩⟩
      <;> rw [after, hs]
    · rfl
    · rfl
    · -- a context has forgotten the message, but it cannot be handed on twice
      exfalso
      obtain ⟨x, hx⟩ : ∃ x, x ∈ s.handed.filter X.isHanded := by
        refine exists_mem_of_ne_nil _ fun hnil => ?_
        rw [handedOn, hnil] at h2
        cases h2
      obtain ⟨hmem, hkey⟩ := mem_filter.mp hx
      obtain ⟨hsrc, hauth⟩ := isHanded_iff.mp hkey
      refine honce.fresh hon hp htime hlocal x hmem (Prod.ext (hsrc.trans hk.src.symm) ?_)
      exact hauth.trans (some.inj ((hk.auth hp).symm.trans hon.eq_auth))

structure Reassembles (X : Sdu) (s : RxNode) : Prop where
  once : OnceOnly s
  stage : X.Stage s

theorem reassembles_step {a : RxAct} (h : X.Reassembles s) (htime : InTime s a)
    (hcalm : X.Calm s a) (hmax : X.bytes.length ≤ max) (hstep : rxStep cfg max s a = some s') :
    X.Reassembles s' := by
  refine ⟨onceOnly_step h.once htime hstep, ?_⟩
  cases a with
  | seg rx =>
    rw [rxStep] at hstep
    split at hstep
    · next hp =>
      cases hstep
      by_cases hk : ∃ k, X.Segment k rx
      · obtain ⟨k, hk⟩ := hk
        exact h.stage.segment h.once hk hp.1 htime hcalm hmax
      · exact h.stage.other hcalm hk
    · exact some.inj hstep ▸ h.stage
  | unseg p localMatch =>
    rw [rxStep] at hstep
    split at hstep
    · exact some.inj hstep ▸ h.stage.setReplay _
    · exact some.inj hstep ▸ h.stage
  | ivUpdate ivIndex ivUpdate now txInProgress =>
    exact some.inj hstep ▸ h.stage.setReplay _
  | expire i =>
    cases hstep
    refine h.stage.mono hcalm fun j c' hc' => ?_
    rw [getElem?_modify] at hc'
    obtain ⟨c, hc, rfl⟩ := map_eq_some_iff.mp hc'
    refine ⟨c, hc, fun _ => ?_⟩
    split
    · exact ⟨rfl, rfl, rfl, fun h => absurd h Bool.false_ne_true⟩
    · exact ⟨rfl, rfl, rfl, id⟩
  | rxReset =>
    cases hstep
    refine h.stage.mono hcalm fun j c' hc' => ?_
    rw [getElem?_map] at hc'
    obtain ⟨c, hc, rfl⟩ := map_eq_some_iff.mp hc'
    exact ⟨c, hc, fun hsrc => absurd hsrc.symm X.unicast⟩

/-- In every run that does not disturb it, the upper layer has got the octets of the message once if
all its segments have arrived, and nothing of it before. -/
theorem handedOn_iff_complete {start : RxNode} (hmax : X.bytes.length ≤ max)
    (hrpl : ∀ r ∈ start.replay.net.rpl, r = emptySlot) (haccepted : start.replay.accepted = [])
    (hhanded : start.handed = []) (harrived : start.arrived = [])
    (hctxs : ∀ c ∈ start.ctxs, c.src = 0)
    (hrun : GuardedRun (rxStep cfg max) (fun s a => InTime s a ∧ X.Calm s a) start s) :
    (X.Complete s → X.handedOn s = [X.bytes]) ∧ (¬ X.Complete s → X.handedOn s = []) := by
  have hno : ∀ (i : Nat) c, start.ctxs[i]? = some c → c.src ≠ X.src := by
    intro i c hc hsrc
    exact X.unicast (hsrc.symm.trans (hctxs c (mem_of_getElem? hc)))
  have hstart : X.Reassembles start := by
    refine ⟨⟨faithful_of_empty hrpl haccepted, by simp [hhanded], by simp [hhanded],
      by simp [hhanded]⟩, .waits (by simp [Got, harrived]) ⟨?_, ?_⟩ (by simp [handedOn, hhanded])⟩
    · exact fun i c hc hkey => hno i c hc hkey.1
    · exact fun i j c c' hc hc' hupon => absurd (comesUpon_iff.mp hupon).1 (hno i c hc)
  have h : X.Reassembles s :=
    hrun.invariant (fun _ _ _ h ha hs => reassembles_step h ha.1 ha.2 hmax hs) hstart
  cases h.stage with
  | waits h1 _ h3 => exact ⟨fun hall => absurd ⟨0, hall 0 (Nat.zero_le _)⟩ h1, fun _ => h3⟩
  | collects h1 _ _ _ h3 => exact ⟨fun hall => absurd hall h1.2, fun _ => h3⟩
  | done h1 h2 => exact ⟨fun _ => h2, fun hnot => absurd h1 hnot⟩

end Sdu

def thirteen : Sdu where
  src := 1
  unicast := Sdu.acrossBlocks.unicast
  dst := 16
  iv := 5
  seq := 10
  hdr := 0x80
  aszmic := false
  ctl := false
  bytes := replicate 12 7 ++ [9]
  nonempty := Sdu.acrossBlocks.nonempty
  segs := Sdu.acrossBlocks.segs

def twoContexts : RxNode := ⟨twoSlots, [noContext, noContext], [], []⟩

theorem thirteen_first : thirteen.Segment 0 (halfMessage 0 10) :=
  ⟨rfl, rfl, rfl, rfl, rfl, rfl, by rw [Sdu.sendSeg_getElem?]; rfl⟩

theorem thirteen_second : thirteen.Segment 1 (halfMessage 1 11) :=
  ⟨rfl, rfl, rfl, rfl, rfl, rfl, by rw [Sdu.sendSeg_getElem?]; rfl⟩

def afterSecond : RxNode :=
  (rxStep ⟨false⟩ 36 twoContexts (.seg (halfMessage 1 11))).getD twoContexts

def afterFirstHalf : RxNode :=
  (rxStep ⟨false⟩ 36 afterSecond (.seg (halfMessage 0 10))).getD twoContexts

theorem handedOn_thirteen : ∃ s, GuardedRun (rxStep ⟨false⟩ 36)
    (fun s a => InTime s a ∧ thirteen.Calm s a) twoContexts s ∧ thirteen.Complete s ∧
      thirteen.handedOn s = [thirteen.bytes] := by
  have hreach : Reaches [emptySlot, emptySlot] 1 := by decide
  have hrun : GuardedRun (rxStep ⟨false⟩ 36) (fun s a => InTime s a ∧ thirteen.Calm s a)
      twoContexts afterFirstHalf :=
    .tail (.single ⟨.seg (halfMessage 1 11), ⟨⟨fun _ => hreach, nofun⟩,
        fun _ _ => ⟨1, thirteen_second⟩, fun _ _ _ => ⟨1, thirteen_second⟩,
        fun _ _ => ⟨noContext, .head _, rfl⟩, fun _ _ _ _ => rfl⟩, (rfl : _ = some afterSecond)⟩)
      ⟨.seg (halfMessage 0 10), ⟨⟨fun _ => hreach, nofun⟩,
        fun _ _ => ⟨0, thirteen_first⟩, fun _ _ _ => ⟨0, thirteen_first⟩,
        fun _ _ => ⟨noContext, .tail _ (.head _), rfl⟩, fun _ _ _ _ => rfl⟩, rfl⟩
  have hall : thirteen.Complete afterFirstHalf := by
    intro k hk
    rcases Nat.le_one_iff_eq_zero_or_eq_one.mp hk with rfl | rfl
    · exact ⟨_, .tail _ (.head _), thirteen_first⟩
    · exact ⟨_, .head _, thirteen_second⟩
  refine ⟨_, hrun, hall, (thirteen.handedOn_iff_complete ?_ ?_ rfl rfl rfl ?_ hrun).1 hall⟩
  · decide
  · simp [twoContexts, twoSlots]
  · simp [twoContexts, noContext]

set_option maxRecDepth 4000 in
/-- The first context is given to another message although the second is free, and the two halves
are put together once more. -/
theorem thirteen_handed_twice :
    ∃ s, [RxAct.seg (halfMessage 1 11), .seg (halfMessage 0 10), .seg otherMessage,
        .seg (halfMessage 0 10), .seg (halfMessage 1 11)].foldlM (rxStep ⟨false⟩ 36) twoContexts =
          some s ∧
      thirteen.handedOn s = [thirteen.bytes, thirteen.bytes] :=
  ⟨_, rfl, rfl⟩

end Zephyr.Mesh
