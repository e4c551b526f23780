import RdmaSync.Paths.Clean

/-!
# ClosedForm — what `clean_fname` leaves of a name

A closed form of `clean_fname` for all flags: which pieces count, which `..` are
taken away together with what stands in front of them, and how the rest is joined.
-/

namespace RdmaSync.Paths

open Lib.Path

/-! ## The closed form -/

def endsSlashed (flags : CleanFlags) (c : Component) : Bool :=
  decide (c = []) || (decide (c = dot) && flags.dropTrailingDotDir)

def keptComponents (flags : CleanFlags) : List Component → List Component
  | [] => []
  | [c] => if endsSlashed flags c then [] else [c]
  | c :: d :: rest =>
    if c = [] ∨ c = dot ∧ flags.keepDotDirs = false then keptComponents flags (d :: rest)
    else c :: keptComponents flags (d :: rest)

def trailing (flags : CleanFlags) (ps : List Component) : Bool := endsSlashed flags (ps.getLastD [])

def settle (flags : CleanFlags) (anchored : Bool) (ks : List Component) (c : Component) :
    List Component :=
  if c = dotdot ∧ flags.collapseDotDotDirs = true ∧
      (anchored = true ∧ ks = [] ∨ anchored = false ∧ ks.length = 1 ∧ ks ≠ [dotdot]) then []
  else ks ++ [c]

def leadOf (anchored : Bool) : Bytes := if anchored then [47] else []

def body (anchored : Bool) (ks : List Component) (slash : Bool) : Bytes :=
  leadOf anchored ++ if slash then slashed ks else [47].intercalate ks

/-- What the limit has to be for the next `..` of a relative name. -/
def LimitOk (flags : CleanFlags) (anchored : Bool) (ks : List Component) (limit : Nat) : Prop :=
  flags.collapseDotDotDirs = true → anchored = false →
    (ks = [] → limit = 0) ∧ ∀ x, ks = [x] → limit = if x = dotdot then 2 else 0

section Loop

variable {flags : CleanFlags} {anchored : Bool} {ks rest : List Component} {c : Component}
  {limit : Nat}

theorem limitOk_append (hks : LimitOk flags anchored ks limit) (hc : c ≠ dotdot) :
    LimitOk flags anchored (ks ++ [c]) limit := by
  intro hcollapse hrel
  refine ⟨fun h => absurd h (by simp), fun x hx => ?_⟩
  obtain ⟨rfl, rfl⟩ : ks = [] ∧ c = x := by
    cases ks with
    | nil => simpa using hx
    | cons k ks => simp at hx
  rw [if_neg hc]
  exact (hks hcollapse hrel).1 rfl

theorem backUp_le (out : Bytes) (limit s : Nat) : backUp out limit s ≤ s := by
  induction s with
  | zero => exact Nat.le_refl _
  | succ s ih =>
    rw [backUp]
    split
    · omega
    · exact Nat.le_refl _

theorem le_backUp (pre : Bytes) (c : Component) (limit s : Nat) :
    pre.length + 1 ≤ backUp (pre ++ 47 :: c ++ [47]) limit (pre.length + 1 + s) := by
  induction s with
  | zero =>
    have hslash : (pre ++ 47 :: c ++ [47])[pre.length]? = some 47 := by simp
    rw [Nat.add_zero, backUp, if_neg fun h => h.2 hslash]
  | succ s ih =>
    rw [← Nat.add_assoc, backUp]
    split
    · exact ih
    · omega

theorem not_collapsed (hc : 47 ∉ c) (pre : Bytes) (limit : Nat) : let out := pre ++ 47 :: c ++ [47]
    let s := backUp out limit (out.length - 1)
    ¬ (s ≠ out.length - 1 ∧ (s = 0 ∨ out[s]? = some 47)) := by
  intro out s
  have hlen : out.length - 1 = pre.length + 1 + c.length := by simp [out]; omega
  have hge : pre.length + 1 ≤ s := by
    simp only [s, hlen]
    exact le_backUp pre c limit c.length
  have hle : s ≤ pre.length + 1 + c.length := hlen ▸ backUp_le out limit (out.length - 1)
  rintro ⟨hne, hzero | hslash⟩
  · omega
  · have hin : s - (pre.length + 1) < c.length := by omega
    have hget : out[s]? = (c)[s - (pre.length + 1)]? := by
      simp only [out]
      rw [List.append_assoc, List.getElem?_append_right (by omega), List.cons_append,
        List.getElem?_cons, if_neg (by omega), List.getElem?_append_left (by omega), Nat.sub_sub]
    exact hc (List.mem_of_getElem? (hget.symm.trans hslash))

theorem exists_front (ks : List Component) (e : Component) :
    ∃ pre, 47 :: slashed (ks ++ [e]) = pre ++ 47 :: e ++ [47] := by
  rw [slashed_concat]
  by_cases hks : ks = []
  · exact ⟨[], by simp [hks]⟩
  · exact ⟨47 :: [47].intercalate ks, by simp [slashed_eq_intercalate hks]⟩

theorem backUp_eq_zero (hc : 47 ∉ c) {s : Nat} (hs : s ≤ c.length) :
    backUp (c ++ [47]) 0 s = 0 := by
  induction s with
  | zero => rfl
  | succ s ih =>
    have hget : (c ++ [47])[s]? ≠ some 47 := by
      rw [List.getElem?_append_left (by omega)]
      exact fun h => hc (List.mem_of_getElem? h)
    rw [backUp, if_pos ⟨Nat.succ_pos s, hget⟩]
    exact ih (by omega)

theorem cleanLoop_dotdot (hcollapse : flags.collapseDotDotDirs = true)
    (hrefuse : flags.refuseDotDotDirs = false) (hks : ∀ c ∈ ks, Solid c)
    (hlimit : LimitOk flags anchored ks limit) (rest : List Component) :
    (settle flags anchored ks dotdot = [] ∧ LimitOk flags anchored [] limit ∧
        cleanLoop flags anchored (dotdot :: rest) (leadOf anchored ++ slashed ks) limit =
          cleanLoop flags anchored rest (leadOf anchored) limit) ∨
      (settle flags anchored ks dotdot = ks ++ [dotdot] ∧
        LimitOk flags anchored (ks ++ [dotdot]) ((leadOf anchored ++ slashed ks).length + 2) ∧
        cleanLoop flags anchored (dotdot :: rest) (leadOf anchored ++ slashed ks) limit =
          cleanLoop flags anchored rest
            (leadOf anchored ++ slashed ks ++ withSlash dotdot rest)
            ((leadOf anchored ++ slashed ks).length + 2)) := by
  have hlimit' :
    LimitOk flags anchored (ks ++ [dotdot]) ((leadOf anchored ++ slashed ks).length + 2) := by
    intro _ hrel
    refine ⟨fun h => absurd h (by simp), fun x hx => ?_⟩
    obtain ⟨rfl, rfl⟩ : ks = [] ∧ dotdot = x := by
      cases ks with
      | nil => simpa using hx
      | cons k ks => simp at hx
    rw [if_pos rfl, hrel]
    rfl
  rw [cleanLoop, if_neg (by decide), if_neg (fun h => absurd h.1 (by decide)),
    if_neg (fun h => absurd h.1 (by decide)), if_pos ⟨rfl, by rw [hcollapse]; rfl⟩,
    if_neg (by simp [hrefuse])]
  cases anchored with
  | true =>
    by_cases hnil : ks = []
    · subst hnil
      exact .inl ⟨if_pos ⟨rfl, hcollapse, .inl ⟨rfl, rfl⟩⟩, fun _ h => (by cases h),
        if_pos ⟨rfl, rfl⟩⟩
    · obtain ⟨ks', e, rfl⟩ := (List.eq_nil_or_concat' ks).resolve_left hnil
      obtain ⟨pre, hpre⟩ := exists_front ks' e
      have hstay := not_collapsed (hks e (by simp)).2 pre limit
      have hout : leadOf true ++ slashed (ks' ++ [e]) = pre ++ 47 :: e ++ [47] := hpre
      rw [← hout] at hstay
      refine .inr ⟨if_neg (by simp), hlimit', ?_⟩
      rw [if_neg, if_neg hstay]
      rintro ⟨hlen, -⟩
      rw [hout] at hlen
      simp at hlen
  | false =>
    obtain ⟨hnil, hone⟩ := hlimit hcollapse rfl
    rw [if_neg (fun h => absurd h.2 (by decide))]
    rcases ks with _ | ⟨x, _ | ⟨y, ks⟩⟩
    · exact .inr ⟨if_neg (by simp), hlimit', rfl⟩
    · by_cases hx : x = dotdot
      · subst hx
        refine .inr ⟨if_neg (by simp), hlimit', ?_⟩
        rw [hone dotdot rfl]
        rfl
      · have hsolid := hks x (by simp)
        have hlen : (x ++ [47]).length - 1 = x.length := by simp
        have hback := backUp_eq_zero hsolid.2 (Nat.le_refl x.length)
        refine .inl ⟨if_pos ⟨rfl, hcollapse, .inr ⟨rfl, rfl, by simpa using hx⟩⟩, ?_, ?_⟩
        · rw [hone x rfl, if_neg hx]
          exact fun _ _ => ⟨fun _ => rfl, fun y hy => by cases hy⟩
        · have hout : leadOf false ++ slashed [x] = x ++ [47] := by simp [leadOf, slashed]
          rw [hone x rfl, if_neg hx, hout]
          dsimp only
          rw [hlen, hback, if_pos]
          · rfl
          · refine ⟨fun h => hsolid.1 (List.length_eq_zero_iff.mp h.symm), .inl rfl⟩
    · obtain ⟨ks', e, heq⟩ := (List.eq_nil_or_concat' (y :: ks)).resolve_left (by simp)
      rw [heq] at hks hlimit' ⊢
      have hfront : leadOf false ++ slashed (x :: (ks' ++ [e])) =
          [47].intercalate (x :: ks') ++ 47 :: e ++ [47] := by
        have hsplit : slashed (x :: (ks' ++ [e])) = slashed (x :: ks') ++ (e ++ [47]) := by
          rw [← List.cons_append, slashed_concat, List.append_assoc]
        rw [hsplit, slashed_eq_intercalate (by simp)]
        simp [leadOf]
      have hstay := not_collapsed (hks e (by simp)).2 ([47].intercalate (x :: ks')) limit
      rw [← hfront] at hstay
      refine .inr ⟨if_neg (by simp), hlimit', ?_⟩
      rw [if_neg hstay]

theorem body_concat (anchored : Bool) (ks : List Component) (c : Component) :
    body anchored (ks ++ [c]) false = leadOf anchored ++ slashed ks ++ c := by
  rw [body, if_neg (by simp), intercalate_append_one, List.append_assoc]

theorem body_nil (anchored slash : Bool) : body anchored [] slash = leadOf anchored := by
  cases slash <;> simp [body, slashed]

/-- The last piece. -/
theorem cleanLoop_last (hc : 47 ∉ c) (hks : ∀ k ∈ ks, Solid k)
    (hlimit : LimitOk flags anchored ks limit) :
    cleanLoop flags anchored [c] (leadOf anchored ++ slashed ks) limit =
      if flags.refuseDotDotDirs = true ∧ c = dotdot then none
      else some (body anchored ((keptComponents flags [c]).foldl (settle flags anchored) ks)
        (trailing flags [c])) := by
  by_cases hnil : c = []
  · subst hnil
    rw [cleanLoop, if_pos rfl, if_neg (by simp [dotdot])]
    rfl
  by_cases hdrop : c = dot ∧ flags.dropTrailingDotDir = true
  · obtain ⟨rfl, hdrop⟩ := hdrop
    have hends : endsSlashed flags dot = true := by simp [endsSlashed, hdrop]
    rw [cleanLoop, if_neg hnil, if_neg (by simp), if_pos ⟨rfl, rfl, hdrop⟩,
      if_neg (fun h => absurd h.2 (by decide)), keptComponents, hends, trailing, List.getLastD_cons,
      List.getLastD_nil, hends]
    rfl
  have hends : endsSlashed flags c = false := by
    rw [endsSlashed, decide_eq_false hnil, Bool.false_or, Bool.and_eq_false_iff]
    by_cases hdot : c = dot
    · exact .inr (Bool.eq_false_iff.mpr fun h => hdrop ⟨hdot, h⟩)
    · exact .inl (decide_eq_false hdot)
  have hkept : (keptComponents flags [c]).foldl (settle flags anchored) ks =
      settle flags anchored ks c := by
    rw [keptComponents, hends]
    rfl
  have htrail : trailing flags [c] = false := by
    rw [trailing, List.getLastD_cons, List.getLastD_nil, hends]
  rw [hkept, htrail]
  by_cases hup : c = dotdot
  · subst hup
    cases hrefuse : flags.refuseDotDotDirs with
    | true =>
      rw [if_pos ⟨rfl, rfl⟩, cleanLoop, if_neg hnil, if_neg (by simp),
        if_neg (fun h => absurd h.1 (by decide)), if_pos ⟨rfl, by rw [hrefuse, Bool.or_true]⟩,
        if_pos hrefuse]
    | false =>
      rw [if_neg (by simp)]
      cases hcollapse : flags.collapseDotDotDirs with
      | true =>
        rcases cleanLoop_dotdot hcollapse hrefuse hks hlimit [] with
          ⟨hsettle, -, hloop⟩ | ⟨hsettle, -, hloop⟩
        · rw [hloop, hsettle, body_nil]
          rfl
        · rw [hloop, hsettle, body_concat]
          rfl
      | false =>
        have hsettle : settle flags anchored ks dotdot = ks ++ [dotdot] :=
          if_neg (by simp [hcollapse])
        rw [cleanLoop, if_neg hnil, if_neg (by simp), if_neg (fun h => absurd h.1 (by decide)),
          if_neg (by simp [hcollapse, hrefuse]), hsettle, body_concat]
        rfl
  · have hsettle : settle flags anchored ks c = ks ++ [c] := if_neg (fun h => hup h.1)
    rw [cleanLoop, if_neg hnil, if_neg (by simp), if_neg (fun h => hdrop ⟨h.1, h.2.2⟩),
      if_neg (fun h => hup h.1), if_neg (fun h => hup h.2), hsettle, body_concat]
    rfl

theorem solid_settle (hks : ∀ k ∈ ks, Solid k) (hc : Solid c) :
    ∀ k ∈ settle flags anchored ks c, Solid k := by
  rw [settle]
  split
  · simp
  · intro k hk
    rcases List.mem_append.mp hk with hk | hk
    · exact hks k hk
    · rw [List.mem_singleton.mp hk]
      exact hc

theorem keptComponents_cons {d : Component} :
    keptComponents flags (c :: d :: rest) =
      if c = [] ∨ c = dot ∧ flags.keepDotDirs = false then keptComponents flags (d :: rest)
      else c :: keptComponents flags (d :: rest) := rfl

/-- **The loop in closed form.** -/
theorem cleanLoop_eq {ps : List Component} (hps : ps ≠ []) (hslash : ∀ c ∈ ps, 47 ∉ c) :
    ∀ {ks : List Component} {limit : Nat}, (∀ k ∈ ks, Solid k) → LimitOk flags anchored ks limit →
      cleanLoop flags anchored ps (leadOf anchored ++ slashed ks) limit =
        if flags.refuseDotDotDirs = true ∧ dotdot ∈ ps then none
        else some (body anchored ((keptComponents flags ps).foldl (settle flags anchored) ks)
          (trailing flags ps)) := by
  induction ps with
  | nil => exact absurd rfl hps
  | cons c rest ih =>
    intro ks limit hks hlimit
    cases rest with
    | nil =>
      rw [cleanLoop_last (hslash c (by simp)) hks hlimit]
      simp only [List.mem_singleton, eq_comm]
    | cons d rest =>
      have hrest : ∀ c ∈ d :: rest, 47 ∉ c := fun c hc => hslash c (List.mem_cons_of_mem _ hc)
      replace ih := @ih (List.cons_ne_nil d rest) hrest
      have htrail : trailing flags (c :: d :: rest) = trailing flags (d :: rest) := rfl
      have hmem : c ≠ dotdot → (dotdot ∈ c :: d :: rest ↔ dotdot ∈ d :: rest) := fun hne => by
        rw [List.mem_cons]
        exact or_iff_right (Ne.symm hne)
      by_cases hskip : c = [] ∨ c = dot ∧ flags.keepDotDirs = false
      · have hne : c ≠ dotdot := by
          rcases hskip with rfl | ⟨rfl, -⟩ <;> decide
        have hloop : cleanLoop flags anchored (c :: d :: rest) (leadOf anchored ++ slashed ks)
            limit = cleanLoop flags anchored (d :: rest) (leadOf anchored ++ slashed ks) limit := by
          rw [cleanLoop]
          rcases hskip with hnil | ⟨hdot, hkeep⟩
          · rw [if_pos hnil]
          · rw [if_neg (by rw [hdot]; decide), if_pos ⟨hdot, by simp, hkeep⟩]
        rw [hloop, ih hks hlimit, keptComponents_cons, if_pos hskip, htrail]
        simp only [hmem hne]
      · have hnil : c ≠ [] := fun h => hskip (.inl h)
        have hsolid : Solid c := ⟨hnil, hslash c (by simp)⟩
        have hout : leadOf anchored ++ slashed ks ++ withSlash c (d :: rest) =
            leadOf anchored ++ slashed (ks ++ [c]) := by
          rw [slashed_concat, withSlash_cons]
          simp
        have hks' := @solid_settle flags anchored ks c hks hsolid
        rw [keptComponents_cons, if_neg hskip, List.foldl_cons, htrail]
        by_cases hup : c = dotdot
        · subst hup
          cases hrefuse : flags.refuseDotDotDirs with
          | true =>
            rw [if_pos ⟨rfl, by simp⟩, cleanLoop, if_neg hnil,
              if_neg (fun h => absurd h.1 (by decide)),
              if_neg (fun h => absurd h.1 (by decide)),
              if_pos ⟨rfl, by rw [hrefuse, Bool.or_true]⟩, if_pos hrefuse]
          | false =>
            rw [hrefuse] at ih
            simp only [Bool.false_eq_true, false_and, if_false] at ih ⊢
            cases hcollapse : flags.collapseDotDotDirs with
            | true =>
              rcases cleanLoop_dotdot hcollapse hrefuse hks hlimit (d :: rest) with
                ⟨hsettle, hlim, hloop⟩ | ⟨hsettle, hlim, hloop⟩
              · have hrest := @ih [] limit (by simp) hlim
                rw [hloop, hsettle, ← hrest]
                simp [slashed]
              · rw [hsettle] at hks' ⊢
                rw [hloop, hout, ih hks' hlim]
            | false =>
              have hsettle : settle flags anchored ks dotdot = ks ++ [dotdot] :=
                if_neg (by simp [hcollapse])
              rw [hsettle] at hks' ⊢
              rw [cleanLoop, if_neg hnil, if_neg (fun h => absurd h.1 (by decide)),
                if_neg (fun h => absurd h.1 (by decide)),
                if_neg (by simp [hcollapse, hrefuse]), hout,
                ih hks' (fun h => by rw [hcollapse] at h; cases h)]
        · have hsettle : settle flags anchored ks c = ks ++ [c] := if_neg (fun h => hup h.1)
          rw [hsettle] at hks' ⊢
          rw [cleanLoop, if_neg hnil, if_neg (fun h => hskip (.inr ⟨h.1, h.2.2⟩)),
            if_neg (by simp), if_neg (fun h => hup h.1), hout,
            ih hks' (limitOk_append hlimit hup)]
          simp only [hmem hup]

end Loop

/-! ## Joining what stays -/

def render (anchored : Bool) (ks : List Component) (slash : Bool) : Bytes :=
  if ks = [] then if anchored then [47] else dot
  else leadOf anchored ++ [47].intercalate ks ++ if slash then [47] else []

/-- Components of which the first ones went away with a `..` behind them. -/
def dropPairs : List Component → List Component
  | x :: y :: rest => if x ≠ dotdot ∧ y = dotdot then dropPairs rest else x :: y :: rest
  | cs => cs

def reduced (flags : CleanFlags) (anchored : Bool) (cs : List Component) : List Component :=
  if flags.collapseDotDotDirs then
    if anchored then cs.dropWhile (· == dotdot) else dropPairs cs
  else cs

def innerPieces (name : Bytes) : List Component :=
  if isAbsolute name then (pieces name).tail else pieces name

section Joining

variable {flags : CleanFlags} {anchored : Bool} {ks cs : List Component} {name : Bytes}

theorem cleanEnd_body (hks : ∀ k ∈ ks, Solid k) (slash : Bool) :
    cleanEnd flags anchored (body anchored ks slash) =
      render anchored ks (slash && flags.keepTrailingSlash) := by
  by_cases hnil : ks = []
  · subst hnil
    rw [body_nil, render, if_pos rfl]
    cases anchored <;> rfl
  have hne : [47].intercalate ks ≠ [] := Lib.Text.intercalate_ne_nil hnil fun k hk => (hks k hk).1
  rw [render, if_neg hnil, cleanEnd, body]
  cases slash with
  | true =>
    rw [if_pos rfl, slashed_eq_intercalate hnil, ← List.append_assoc]
    have hlen : (leadOf anchored ++ [47].intercalate ks ++ [47]).length > anchored.toNat := by
      cases anchored <;> simp [leadOf]
    cases hkeep : flags.keepTrailingSlash with
    | true => simp
    | false =>
      have hcond : (leadOf anchored ++ [47].intercalate ks ++ [47]).length > anchored.toNat ∧
          (leadOf anchored ++ [47].intercalate ks ++ [47]).getLast? = some 47 ∧ false = false :=
        ⟨hlen, List.getLast?_concat, rfl⟩
      rw [if_pos hcond, List.dropLast_concat]
      simp [hne]
  | false =>
    obtain ⟨ks', c, rfl⟩ := (List.eq_nil_or_concat' ks).resolve_left hnil
    have hc := hks c (by simp)
    have hlast : (leadOf anchored ++ [47].intercalate (ks' ++ [c])).getLast? ≠ some 47 := by
      rw [intercalate_append_one, ← List.append_assoc, List.getLast?_append_of_ne_nil _ hc.1]
      exact fun h => hc.2 (List.mem_of_getLast? h)
    have hcond : ¬ ((leadOf anchored ++ [47].intercalate (ks' ++ [c])).length > anchored.toNat ∧
        (leadOf anchored ++ [47].intercalate (ks' ++ [c])).getLast? = some 47 ∧
        flags.keepTrailingSlash = false) := fun h => hlast h.2.1
    rw [if_neg (show ¬ false = true by simp), if_neg hcond, if_neg (by simp [hne])]
    simp

theorem foldl_settle_fixed (hfix : anchored = true → ks ≠ [])
    (hfix' : anchored = false → 2 ≤ ks.length ∨ ks = [dotdot]) :
    cs.foldl (settle flags anchored) ks = ks ++ cs := by
  induction cs generalizing ks with
  | nil => rw [List.append_nil]; rfl
  | cons c cs ih =>
    have hsettle : settle flags anchored ks c = ks ++ [c] := by
      refine if_neg ?_
      rintro ⟨-, -, ⟨habs, hnil⟩ | ⟨hrel, hlen, hne⟩⟩
      · exact hfix habs hnil
      · rcases hfix' hrel with h | h
        · omega
        · exact hne h
    rw [List.foldl_cons, hsettle, ih (fun _ => by simp) fun hrel => .inl ?_, List.append_assoc]
    · rfl
    · rcases hfix' hrel with h | h
      · rw [List.length_append]
        omega
      · rw [h]
        simp

theorem foldl_settle (cs : List Component) :
    cs.foldl (settle flags anchored) [] = reduced flags anchored cs := by
  rw [reduced]
  cases hcollapse : flags.collapseDotDotDirs with
  | false =>
    have hall : ∀ ks, cs.foldl (settle flags anchored) ks = ks ++ cs := by
      induction cs with
      | nil => exact fun ks => (List.append_nil ks).symm
      | cons c cs ih =>
        intro ks
        have hsettle : settle flags anchored ks c = ks ++ [c] := if_neg (by simp [hcollapse])
        rw [List.foldl_cons, hsettle, ih, List.append_assoc]
        rfl
    exact hall []
  | true =>
    rw [if_pos rfl]
    cases anchored with
    | true =>
      rw [if_pos rfl]
      induction cs with
      | nil => rfl
      | cons c cs ih =>
        by_cases hup : c = dotdot
        · have hsettle : settle flags true [] c = [] :=
            if_pos ⟨hup, hcollapse, .inl ⟨rfl, rfl⟩⟩
          rw [List.foldl_cons, hsettle, ih, List.dropWhile_cons_of_pos (by simp [hup])]
        · have hsettle : settle flags true [] c = [c] := if_neg (fun h => hup h.1)
          rw [List.foldl_cons, hsettle, foldl_settle_fixed (by simp) (by simp),
            List.dropWhile_cons_of_neg (by simp [hup])]
          rfl
    | false =>
      rw [if_neg (by simp)]
      fun_induction dropPairs cs with
      | case1 x y rest hpair ih =>
        have hfirst : settle flags false [] x = [x] := if_neg (by simp)
        have hsecond : settle flags false [x] y = [] :=
          if_pos ⟨hpair.2, hcollapse, .inr ⟨rfl, rfl, by simpa using hpair.1⟩⟩
        rw [List.foldl_cons, hfirst, List.foldl_cons, hsecond, ih]
      | case2 x y rest hpair =>
        have hfirst : settle flags false [] x = [x] := if_neg (by simp)
        rw [List.foldl_cons, hfirst, List.foldl_cons]
        by_cases hx : x = dotdot
        · rw [← List.foldl_cons, foldl_settle_fixed (by simp) (fun _ => .inr (by rw [hx]))]
          rfl
        · have hsecond : settle flags false [x] y = [x, y] :=
            if_neg (fun h => hpair ⟨hx, h.1⟩)
          rw [hsecond, foldl_settle_fixed (by simp) (fun _ => .inl (by simp))]
          rfl
      | case3 cs hshort =>
        match cs, hshort with
        | [], _ => rfl
        | [x], _ => exact if_neg (by simp)
        | x :: y :: rest, hshort => exact absurd rfl (hshort x y rest)

theorem mem_of_mem_dropPairs {c : Component} (h : c ∈ dropPairs cs) : c ∈ cs := by
  fun_induction dropPairs cs with
  | case1 x y rest hpair ih => exact List.mem_cons_of_mem _ (List.mem_cons_of_mem _ (ih h))
  | case2 => exact h
  | case3 => exact h

theorem mem_of_mem_reduced {c : Component} (h : c ∈ reduced flags anchored cs) : c ∈ cs := by
  rw [reduced] at h
  split at h
  · split at h
    · exact (List.dropWhile_sublist _).subset h
    · exact mem_of_mem_dropPairs h
  · exact h

theorem mem_of_mem_keptComponents {c : Component} {ps : List Component}
    (h : c ∈ keptComponents flags ps) : c ∈ ps ∧ c ≠ [] := by
  fun_induction keptComponents flags ps with
  | case1 => cases h
  | case2 => cases h
  | case3 d hd =>
    rw [List.mem_singleton.mp h]
    refine ⟨by simp, fun hnil => hd ?_⟩
    simp [endsSlashed, hnil]
  | case4 d e rest _ ih => exact ⟨List.mem_cons_of_mem _ (ih h).1, (ih h).2⟩
  | case5 d e rest hd ih =>
    rcases List.mem_cons.mp h with rfl | h
    · exact ⟨by simp, fun hnil => hd (.inl hnil)⟩
    · exact ⟨List.mem_cons_of_mem _ (ih h).1, (ih h).2⟩

theorem innerPieces_ne_nil (name : Bytes) : innerPieces name ≠ [] := by
  rw [innerPieces]
  split
  · rename_i habs
    rw [isAbsolute, beq_iff_eq] at habs
    obtain ⟨p, rfl⟩ := List.head?_eq_some_iff.mp habs
    rw [pieces_slash]
    exact pieces_ne_nil p
  · exact pieces_ne_nil name

theorem mem_pieces_of_inner {c : Component} (h : c ∈ innerPieces name) : c ∈ pieces name := by
  rw [innerPieces] at h
  split at h
  · exact List.mem_of_mem_tail h
  · exact h

theorem components_eq_inner (name : Bytes) :
    components name = (innerPieces name).filter (!·.isEmpty) := by
  rw [components_eq_filter, innerPieces]
  split
  · rename_i habs
    rw [isAbsolute, beq_iff_eq] at habs
    obtain ⟨p, rfl⟩ := List.head?_eq_some_iff.mp habs
    rw [pieces_slash]
    rfl
  · rfl

theorem dotdot_mem_inner : dotdot ∈ innerPieces name ↔ dotdot ∈ components name := by
  rw [components_eq_inner, List.mem_filter]
  exact ⟨fun h => ⟨h, by decide⟩, fun h => h.1⟩

/-- **`clean_fname` in closed form.** -/
theorem cleanFname_eq (flags : CleanFlags) (name : Bytes) :
    cleanFname flags name =
      if flags.refuseDotDotDirs = true ∧ dotdot ∈ components name then none
      else some (render (isAbsolute name)
        (reduced flags (isAbsolute name) (keptComponents flags (innerPieces name)))
        (trailing flags (innerPieces name) && flags.keepTrailingSlash)) := by
  have hslash : ∀ c ∈ innerPieces name, 47 ∉ c := fun c hc =>
    not_mem_of_mem_pieces (mem_pieces_of_inner hc)
  have hsolid : ∀ k ∈ reduced flags (isAbsolute name) (keptComponents flags (innerPieces name)),
      Solid k := fun k hk => by
    obtain ⟨hmem, hne⟩ := mem_of_mem_keptComponents (mem_of_mem_reduced hk)
    exact ⟨hne, hslash k hmem⟩
  have hmap : ∀ {o : Option Bytes},
      o = (if flags.refuseDotDotDirs = true ∧ dotdot ∈ innerPieces name then none
        else some (body (isAbsolute name)
          ((keptComponents flags (innerPieces name)).foldl (settle flags (isAbsolute name)) [])
          (trailing flags (innerPieces name)))) →
      o.map (cleanEnd flags (isAbsolute name)) =
        if flags.refuseDotDotDirs = true ∧ dotdot ∈ components name then none
        else some (render (isAbsolute name)
          (reduced flags (isAbsolute name) (keptComponents flags (innerPieces name)))
          (trailing flags (innerPieces name) && flags.keepTrailingSlash)) := by
    rintro o rfl
    rw [foldl_settle]
    simp only [dotdot_mem_inner]
    split
    · rfl
    · rw [Option.map_some, cleanEnd_body hsolid]
  have hloop := @cleanLoop_eq flags (isAbsolute name) _ (innerPieces_ne_nil name) hslash
  rw [cleanFname]
  refine hmap ?_
  cases habs : isAbsolute name with
  | true =>
    have hinner : innerPieces name = (pieces name).tail := by rw [innerPieces, if_pos habs]
    rw [habs] at hloop
    rw [if_pos rfl, ← hinner, ← @hloop [] 0 (by simp) (fun _ h => by cases h)]
    rfl
  | false =>
    have hinner : innerPieces name = pieces name := by rw [innerPieces, if_neg (by simp [habs])]
    have hzero : LimitOk flags false [] 0 := fun _ _ => ⟨fun _ => rfl, fun x hx => by cases hx⟩
    rw [habs] at hloop
    rw [if_neg (by simp), ← @hloop [] 0 (by simp) hzero, ← hinner]
    generalize innerPieces name = ps at hloop hslash
    split
    · -- A leading `./` that is kept, as the loop would keep it.
      rename_i hkeep
      obtain ⟨c, d, rest, rfl⟩ : ∃ c d rest, ps = c :: d :: rest := by
        rcases ps with _ | ⟨c, _ | ⟨d, rest⟩⟩
        · simp at hkeep
        · simp at hkeep
        · exact ⟨c, d, rest, rfl⟩
      obtain ⟨hflag, rfl⟩ : flags.keepDotDirs = true ∧ c = dot := by simpa using hkeep
      rw [cleanLoop, if_neg (by decide), if_neg (by simp [hflag]), if_neg (by simp),
        if_neg (fun h => absurd h.1 (by decide))]
      rfl
    · split
      · rename_i hrefuse
        obtain ⟨hflag, hhead⟩ : flags.refuseDotDotDirs = true ∧ ps.head? = some dotdot := by
          simpa using hrefuse
        rw [@hloop [] 0 (by simp) hzero, if_pos ⟨hflag, List.mem_of_head? hhead⟩]
      · rfl

end Joining

/-! ## The flags in use -/

section InUse

variable {name : Bytes} {c : Component} {ps : List Component}

theorem render_false (anchored : Bool) (ks : List Component) : render anchored ks false =
    if anchored then absPath ks else if ks = [] then dot else [47].intercalate ks := by
  cases anchored with
  | true =>
    by_cases hnil : ks = []
    · simp [render, hnil, absPath]
    · simp [render, hnil, leadOf, absPath]
  | false =>
    by_cases hnil : ks = []
    · simp [render, hnil]
    · simp [render, hnil, leadOf]

/-- One component of an absolute name: what is nothing is dropped, and a `..`
at the root. -/
def keep (kept : List Component) (c : Component) : List Component :=
  if c = [] ∨ c = dot ∨ (c = dotdot ∧ kept = []) then kept else kept ++ [c]

theorem keptComponents_collapse (ps : List Component) :
    keptComponents collapseFlags ps = ps.filter fun c => decide (c ≠ [] ∧ c ≠ dot) := by
  have hends : ∀ c, endsSlashed collapseFlags c = decide (c = [] ∨ c = dot) := fun c => by
    simp [endsSlashed, collapseFlags]
  simp only [← not_or, decide_not]
  fun_induction keptComponents collapseFlags ps with
  | case1 => rfl
  | case2 c hlast =>
    rw [List.filter_cons, ← hends, hlast]
    rfl
  | case3 c hlast =>
    rw [List.filter_cons, ← hends, Bool.eq_false_iff.mpr hlast]
    rfl
  | case4 c d rest hskip ih =>
    rw [ih, List.filter_cons (x := c), decide_eq_true (hskip.imp_right And.left)]
    rfl
  | case5 c d rest hskip ih =>
    rw [ih, List.filter_cons (x := c), decide_eq_false fun h => hskip (h.imp_right (⟨·, rfl⟩))]
    rfl

theorem keep_eq (kept : List Component) (c : Component) : keep kept c =
    if c ≠ [] ∧ c ≠ dot then settle collapseFlags true kept c else kept := by
  rw [keep, settle]
  by_cases hnil : c = []
  · simp [hnil]
  by_cases hdot : c = dot
  · simp [hdot]
  by_cases hroot : c = dotdot ∧ kept = []
  · rw [if_pos (.inr (.inr hroot)), if_pos ⟨hnil, hdot⟩,
      if_pos ⟨hroot.1, rfl, .inl ⟨rfl, hroot.2⟩⟩, hroot.2]
  · rw [if_neg (not_or.mpr ⟨hnil, not_or.mpr ⟨hdot, hroot⟩⟩), if_pos ⟨hnil, hdot⟩,
      if_neg fun h => hroot ⟨h.1, by simpa using h.2.2⟩]

theorem cleanFname_absolute (habs : isAbsolute name = true) :
    cleanFname collapseFlags name = some (absPath ((components name).foldl keep [])) := by
  have hkept : (keptComponents collapseFlags (innerPieces name)).foldl (settle collapseFlags true)
      [] = (components name).foldl keep [] := by
    rw [keptComponents_collapse, components_eq_inner, List.foldl_filter, List.foldl_filter]
    refine List.foldl_ext _ _ _ fun kept c _ => ?_
    rw [keep_eq]
    cases c with
    | nil => rfl
    | cons b c => simp
  rw [cleanFname_eq, if_neg (by simp [collapseFlags]), habs, ← foldl_settle, hkept,
    show collapseFlags.keepTrailingSlash = false from rfl, Bool.and_false, render_false, if_pos rfl]

/-- The components that `clean_fname` leaves without a `..`. -/
def keptNames (name : Bytes) : List Component := keptComponents refuseFlags (innerPieces name)

theorem solid_keptNames (h : c ∈ keptNames name) : Solid c := by
  obtain ⟨hmem, hne⟩ := mem_of_mem_keptComponents h
  exact ⟨hne, not_mem_of_mem_pieces (mem_pieces_of_inner hmem)⟩

theorem dotdot_notMem_keptNames (h : dotdot ∉ components name) : dotdot ∉ keptNames name :=
  fun hmem => h (dotdot_mem_inner.mp (mem_of_mem_keptComponents hmem).1)

theorem dot_notMem_dropLast_keptNames (name : Bytes) : dot ∉ (keptNames name).dropLast := by
  rw [keptNames]
  fun_induction keptComponents refuseFlags (innerPieces name) with
  | case1 => simp
  | case2 => simp
  | case3 => simp
  | case4 d e rest _ ih => exact ih
  | case5 d e rest hd ih =>
    intro hmem
    by_cases hnil : keptComponents refuseFlags (e :: rest) = []
    · simp [hnil] at hmem
    · rw [List.dropLast_cons_of_ne_nil hnil] at hmem
      rcases List.mem_cons.mp hmem with heq | hmem
      · exact hd (.inr ⟨heq.symm, rfl⟩)
      · exact ih hmem

theorem cleanFname_refuse (name : Bytes) : cleanFname refuseFlags name =
    if dotdot ∈ components name then none
    else some (render (isAbsolute name) (keptNames name) false) := by
  rw [cleanFname_eq, show refuseFlags.keepTrailingSlash = false from rfl, Bool.and_false]
  simp only [show refuseFlags.refuseDotDotDirs = true from rfl, true_and]
  rfl

end InUse

end RdmaSync.Paths
