import Mathlib.Data.List.Induction
import RdmaSync.Lib.Text

/-!
# Path — path names, their components and lexical resolution

A path name is cut at its slashes into `pieces`, empty ones included; its
`components` are the pieces that are not empty. A location is the list of
names on the way down from the root. **Lexical resolution** walks along the
components of a path from a location without looking at any file system.
-/

namespace Lib.Path

open Lib.Text

abbrev Component := Bytes

abbrev Loc := List Component

def dot : Component := [46]
def dotdot : Component := [46, 46]

def isAbsolute (p : Bytes) : Bool := p.head? == some 47

def pieces (p : Bytes) : List Component := p.splitOn 47

def components (p : Bytes) : List Component := words (· == 47) p

def Solid (c : Component) : Prop := c ≠ [] ∧ 47 ∉ c

structure IsName (c : Component) : Prop where
  solid : Solid c
  ne_dot : c ≠ dot
  ne_dotdot : c ≠ dotdot

def dirOf (p : Bytes) : Bytes := (p.reverse.dropWhile (· != 47)).tail.reverse

def baseOf (p : Bytes) : Bytes := (p.reverse.takeWhile (· != 47)).reverse

def slashed (cs : List Component) : Bytes := cs.flatMap (· ++ [47])

def absPath (loc : Loc) : Bytes := 47 :: [47].intercalate loc

/-! ## Cutting and joining -/

section Cutting

variable {c : Component} {cs : List Component} {p q : Bytes}

theorem components_eq_filter (p : Bytes) :
    components p = (pieces p).filter fun c => !c.isEmpty := rfl

theorem mem_components_iff : c ∈ components p ↔ c ∈ pieces p ∧ c ≠ [] := by
  simp [components_eq_filter]

@[simp] theorem components_nil : components [] = [] := rfl

@[simp] theorem components_slash (p : Bytes) : components (47 :: p) = components p :=
  words_sep rfl p

theorem pieces_slash (p : Bytes) : pieces (47 :: p) = [] :: pieces p :=
  List.splitOn_append_cons_self [] p

theorem pieces_ne_nil (p : Bytes) : pieces p ≠ [] := List.splitOn_ne_nil _ _

theorem components_append_slash (p q : Bytes) :
    components (p ++ 47 :: q) = components p ++ components q := by
  rw [components_eq_filter, pieces, List.splitOn_append_cons_self, List.filter_append]
  rfl

theorem not_mem_of_mem_pieces (h : c ∈ pieces p) : 47 ∉ c := by
  induction p generalizing c with
  | nil =>
    rw [List.mem_singleton.mp h]
    simp
  | cons a p ih =>
    rw [pieces, List.splitOn_cons_eq_if_modifyHead] at h
    split at h
    · rcases List.mem_cons.mp h with rfl | h
      · simp
      · exact ih h
    · rename_i ha
      -- The first byte belongs to the first piece of the rest.
      cases hrest : p.splitOn 47 with
      | nil => simp [hrest] at h
      | cons d ds =>
        rw [hrest, List.modifyHead_cons, List.mem_cons] at h
        rcases h with rfl | h
        · have hd : 47 ∉ d := ih (by simp [pieces, hrest])
          exact fun hmem => (List.mem_cons.mp hmem).elim (fun heq => ha (by simp [← heq])) hd
        · exact ih (by simp [pieces, hrest, h])

theorem solid_of_mem_components (h : c ∈ components p) : Solid c := by
  obtain ⟨hmem, hne⟩ := mem_components_iff.mp h
  exact ⟨hne, not_mem_of_mem_pieces hmem⟩

theorem mem_of_mem_pieces {a : UInt8} (h : c ∈ pieces p) (ha : a ∈ c) : a ∈ p := by
  induction p generalizing c with
  | nil =>
    rw [List.mem_singleton.mp h] at ha
    exact ha
  | cons b p ih =>
    rw [pieces, List.splitOn_cons_eq_if_modifyHead] at h
    split at h
    · rcases List.mem_cons.mp h with rfl | h
      · cases ha
      · exact List.mem_cons_of_mem _ (ih h ha)
    · cases hrest : p.splitOn 47 with
      | nil => simp [hrest] at h
      | cons d ds =>
        have hmem : ∀ e ∈ d :: ds, a ∈ e → a ∈ p := fun e he => ih (by rwa [pieces, hrest])
        rw [hrest, List.modifyHead_cons, List.mem_cons] at h
        rcases h with rfl | h
        · rcases List.mem_cons.mp ha with rfl | ha
          · simp
          · exact List.mem_cons_of_mem _ (hmem d (by simp) ha)
        · exact List.mem_cons_of_mem _ (hmem c (by simp [h]) ha)

theorem mem_of_mem_components {a : UInt8} (h : c ∈ components p) (ha : a ∈ c) : a ∈ p :=
  mem_of_mem_pieces (mem_components_iff.mp h).1 ha

theorem components_solid (h : Solid c) : components c = [c] :=
  words_word h.1 fun a ha => by
    simpa using fun heq : a = 47 => h.2 (heq ▸ ha)

@[simp] theorem slashed_nil : slashed [] = [] := rfl

@[simp] theorem slashed_cons (c : Component) (cs : List Component) :
    slashed (c :: cs) = c ++ 47 :: slashed cs := by
  simp [slashed]

theorem slashed_concat (cs : List Component) (c : Component) :
    slashed (cs ++ [c]) = slashed cs ++ c ++ [47] := by
  simp [slashed]

theorem components_slashed (h : ∀ c ∈ cs, Solid c) (p : Bytes) :
    components (slashed cs ++ p) = cs ++ components p := by
  induction cs with
  | nil => rfl
  | cons c cs ih =>
    rw [slashed_cons, List.append_assoc, List.cons_append, components_append_slash,
      components_solid (h c (by simp)), ih fun d hd => h d (by simp [hd]), List.singleton_append,
      List.cons_append]

theorem slashed_eq_intercalate (hne : cs ≠ []) : slashed cs = [47].intercalate cs ++ [47] := by
  induction cs with
  | nil => exact absurd rfl hne
  | cons c cs ih =>
    cases cs with
    | nil => simp
    | cons d cs =>
      rw [slashed_cons, ih (by simp), List.intercalate_cons_cons]
      simp

theorem intercalate_append_one (cs : List Component) (c : Component) :
    [47].intercalate (cs ++ [c]) = slashed cs ++ c := by
  cases cs with
  | nil => simp
  | cons d cs =>
    rw [intercalate_concat _ (by simp), slashed_eq_intercalate (by simp)]
    simp

/-! ### The last slash -/

theorem slash_notMem_reverse_takeWhile (hc : 47 ∉ c) : ∀ a ∈ c.reverse, (a != 47) = true := by
  intro a ha
  have hne : a ≠ 47 := fun heq => hc (heq ▸ List.mem_reverse.mp ha)
  simpa using hne

theorem dirOf_append_slash (hc : 47 ∉ c) (p : Bytes) : dirOf (p ++ 47 :: c) = p := by
  have hrev : (p ++ 47 :: c).reverse = c.reverse ++ 47 :: p.reverse := by simp
  rw [dirOf, hrev, List.dropWhile_append_of_pos (slash_notMem_reverse_takeWhile hc)]
  simp

theorem baseOf_append_slash (hc : 47 ∉ c) (p : Bytes) : baseOf (p ++ 47 :: c) = c := by
  have hrev : (p ++ 47 :: c).reverse = c.reverse ++ 47 :: p.reverse := by simp
  rw [baseOf, hrev, List.takeWhile_append_of_pos (slash_notMem_reverse_takeWhile hc)]
  simp

theorem baseOf_of_notMem (hc : 47 ∉ c) : baseOf c = c := by
  have hall := @List.takeWhile_append_of_pos _ (· != 47) c.reverse []
    (slash_notMem_reverse_takeWhile hc)
  rw [List.append_nil, List.takeWhile_nil, List.append_nil] at hall
  rw [baseOf, hall, List.reverse_reverse]

theorem components_absPath {loc : Loc} (h : ∀ c ∈ loc, Solid c) :
    components (absPath loc) = loc := by
  rw [absPath, components_slash]
  refine words_intercalate rfl fun c hc => ⟨(h c hc).1, fun a ha => ?_⟩
  simpa using fun heq : a = 47 => (h c hc).2 (heq ▸ ha)

def belowPath (sub : Loc) : Bytes := sub.flatMap (47 :: ·)

theorem absPath_eq_belowPath {loc : Loc} (hne : loc ≠ []) : absPath loc = belowPath loc := by
  induction loc with
  | nil => exact absurd rfl hne
  | cons c loc ih =>
    cases loc with
    | nil => simp [absPath, belowPath]
    | cons d loc =>
      have hrest := ih (by simp)
      rw [absPath] at hrest ⊢
      rw [List.intercalate_cons_cons, List.append_assoc, List.singleton_append, hrest]
      rfl

theorem absPath_append {loc : Loc} (hne : loc ≠ []) (sub : Loc) :
    absPath (loc ++ sub) = absPath loc ++ belowPath sub := by
  rw [absPath_eq_belowPath hne, absPath_eq_belowPath (by simp [hne]), belowPath, belowPath,
    belowPath, List.flatMap_append]

@[simp] theorem belowPath_cons (c : Component) (loc : Loc) :
    belowPath (c :: loc) = 47 :: c ++ belowPath loc := rfl

theorem belowPath_concat (loc : Loc) (c : Component) :
    belowPath (loc ++ [c]) = belowPath loc ++ 47 :: c := by
  simp [belowPath]

end Cutting

/-! ## Lexical resolution -/

section Lexical

variable {c : Component} {cs ds : List Component} {loc root : Loc}

/-- One component: a name goes down, `..` goes up as far as the root. -/
def step (loc : Loc) (c : Component) : Loc :=
  if c = dotdot then loc.dropLast else if c = dot then loc else loc ++ [c]

def resolve (loc : Loc) (cs : List Component) : Loc := cs.foldl step loc

/-- On the way along the components nothing outside of `root` is passed. -/
def Stays (root loc : Loc) (cs : List Component) : Prop :=
  ∀ n, root <+: resolve loc (cs.take n)

@[simp] theorem resolve_nil : resolve loc [] = loc := rfl

@[simp] theorem resolve_cons : resolve loc (c :: cs) = resolve (step loc c) cs := rfl

theorem resolve_append : resolve loc (cs ++ ds) = resolve (resolve loc cs) ds :=
  List.foldl_append

theorem resolve_names (h : ∀ c ∈ cs, c ≠ dotdot ∧ c ≠ dot) : resolve loc cs = loc ++ cs := by
  induction cs generalizing loc with
  | nil => simp
  | cons c cs ih =>
    obtain ⟨hup, hdot⟩ := h c (by simp)
    rw [resolve_cons, step, if_neg hup, if_neg hdot, ih fun d hd => h d (by simp [hd]),
      List.append_assoc, List.singleton_append]

theorem isPrefix_resolve (h : dotdot ∉ cs) : loc <+: resolve loc cs := by
  induction cs generalizing loc with
  | nil => exact List.prefix_refl _
  | cons c cs ih =>
    have hc : c ≠ dotdot := fun heq => h (by simp [heq])
    have hrest := @ih (step loc c) fun hmem => h (by simp [hmem])
    rw [resolve_cons]
    refine List.IsPrefix.trans ?_ hrest
    rw [step, if_neg hc]
    split
    · exact List.prefix_refl _
    · exact List.prefix_append _ _

theorem resolve_ups (sub : List Component) {k : Nat} (h : k ≤ sub.length) :
    resolve (root ++ sub) (List.replicate k dotdot) = root ++ sub.take (sub.length - k) := by
  induction k generalizing sub with
  | zero => simp
  | succ k ih =>
    have hne : sub ≠ [] := by
      rintro rfl
      simp at h
    have hlen : sub.dropLast.length = sub.length - 1 := List.length_dropLast
    rw [List.replicate_succ, resolve_cons, step, if_pos rfl, List.dropLast_append_of_ne_nil hne,
      ih sub.dropLast (by omega), hlen, List.dropLast_eq_take, List.take_take]
    congr 2
    omega

theorem stays_of_ups {sub : List Component} {k : Nat} (hk : k ≤ sub.length)
    (hcs : dotdot ∉ cs) : Stays root (root ++ sub) (List.replicate k dotdot ++ cs) := by
  intro n
  rw [List.take_append, List.take_replicate, resolve_append, resolve_ups sub (by omega)]
  refine List.IsPrefix.trans (List.prefix_append _ _) (isPrefix_resolve ?_)
  exact fun hmem => hcs (List.mem_of_mem_take hmem)

end Lexical

/-! ## Ways that never meet the root from below -/

section Net

variable {c : Component} {cs ds : List Component} {loc : Loc}

/-- No `..` stands at the root. -/
def Clear : Loc → List Component → Prop
  | _, [] => True
  | loc, c :: cs => (c = dotdot → loc ≠ []) ∧ Clear (step loc c) cs

theorem clear_append : Clear loc (cs ++ ds) ↔ Clear loc cs ∧ Clear (resolve loc cs) ds := by
  induction cs generalizing loc with
  | nil => simp [Clear]
  | cons c cs ih => simp [Clear, ih, and_assoc]

theorem clear_of_names (h : dotdot ∉ cs) : Clear loc cs := by
  induction cs generalizing loc with
  | nil => trivial
  | cons c cs ih =>
    exact ⟨fun hc => absurd (by simp [hc]) h, ih fun hmem => h (by simp [hmem])⟩

def names (cs : List Component) : List Component := cs.filter fun c => c ≠ dot ∧ c ≠ dotdot

/-- As many names as `..`. -/
def Balanced (cs : List Component) : Prop := (names cs).length = cs.count dotdot

instance (cs : List Component) : Decidable (Balanced cs) :=
  inferInstanceAs (Decidable (_ = _))

/-- What a way does: it leaves so many names of where it starts, and goes down
along others. -/
structure Net where
  up : Nat
  down : List Component

def Net.step (n : Net) (c : Component) : Net :=
  if c = dotdot then
    if n.down = [] then { n with up := n.up + 1 } else { n with down := n.down.dropLast }
  else if c = dot then n
  else { n with down := n.down ++ [c] }

def net (cs : List Component) : Net := cs.foldl Net.step ⟨0, []⟩

theorem net_concat : net (cs ++ [c]) = (net cs).step c := by
  rw [net, List.foldl_append]
  rfl

/-- Dots do nothing. -/
theorem net_filter_dot (cs : List Component) : net (cs.filter (· ≠ dot)) = net cs := by
  induction cs using List.reverseRecOn with
  | nil => rfl
  | append_singleton cs c ih =>
    rw [List.filter_append, net_concat]
    by_cases hdot : c = dot
    · subst hdot
      rw [List.filter_cons_of_neg (by simp), List.filter_nil, List.append_nil, ih, Net.step,
        if_neg (by decide), if_pos rfl]
    · rw [List.filter_cons_of_pos (by simpa using hdot), List.filter_nil, net_concat, ih]

theorem net_dotdot_cons (cs : List Component) :
    net (dotdot :: cs) = ⟨(net cs).up + 1, (net cs).down⟩ := by
  induction cs using List.reverseRecOn with
  | nil => rfl
  | append_singleton cs c ih =>
    rw [← List.cons_append, net_concat, ih, net_concat, Net.step, Net.step]
    by_cases hup : c = dotdot
    · rw [if_pos hup, if_pos hup]
      split <;> rfl
    · rw [if_neg hup, if_neg hup]
      split <;> rfl

theorem net_dot_cons (cs : List Component) : net (dot :: cs) = net cs := by
  rw [← net_filter_dot (dot :: cs), List.filter_cons_of_neg (by simp), net_filter_dot]

theorem net_pair_cons (hdot : c ≠ dot) (hup : c ≠ dotdot) (cs : List Component) :
    net (c :: dotdot :: cs) = net cs := by
  have hdown : Net.step ⟨0, []⟩ c = ⟨0, [c]⟩ := by
    rw [Net.step, if_neg hup, if_neg hdot]
    rfl
  have hback : Net.step ⟨0, [c]⟩ dotdot = ⟨0, []⟩ := by
    rw [Net.step, if_pos rfl, if_neg (by simp)]
    rfl
  rw [net, List.foldl_cons, List.foldl_cons, hdown, hback, net]

theorem resolve_filter_dot (loc : Loc) (cs : List Component) :
    resolve loc (cs.filter (· ≠ dot)) = resolve loc cs := by
  induction cs generalizing loc with
  | nil => rfl
  | cons c cs ih =>
    by_cases hdot : c = dot
    · subst hdot
      rw [List.filter_cons_of_neg (by simp), ih, resolve_cons, Path.step, if_neg (by decide),
        if_pos rfl]
    · rw [List.filter_cons_of_pos (by simpa using hdot), resolve_cons, ih, resolve_cons]

/-- At the root a `..` does nothing. -/
theorem resolve_dropWhile_dotdot (cs : List Component) :
    resolve [] (cs.dropWhile (· == dotdot)) = resolve [] cs := by
  induction cs with
  | nil => rfl
  | cons c cs ih =>
    by_cases hup : c = dotdot
    · subst hup
      rw [List.dropWhile_cons_of_pos (by simp), ih, resolve_cons, Path.step, if_pos rfl]
      rfl
    · rw [List.dropWhile_cons_of_neg (by simpa using hup)]

theorem resolve_eq_net (h : (net cs).up ≤ loc.length) :
    resolve loc cs = loc.take (loc.length - (net cs).up) ++ (net cs).down := by
  induction cs using List.reverseRecOn with
  | nil => simp [net]
  | append_singleton cs c ih =>
    rw [net_concat] at h ⊢
    rw [resolve_append, resolve_cons, resolve_nil, Path.step]
    by_cases hup : c = dotdot
    · simp only [Net.step, if_pos hup] at h ⊢
      by_cases hdown : (net cs).down = []
      · simp only [if_pos hdown] at h ⊢
        rw [ih (by omega), hdown, List.append_nil, List.append_nil, List.dropLast_eq_take,
          List.take_take, List.length_take]
        congr 1
        omega
      · simp only [if_neg hdown] at h ⊢
        rw [ih h, List.dropLast_append_of_ne_nil hdown]
    · simp only [Net.step, if_neg hup] at h ⊢
      by_cases hdot : c = dot
      · simp only [if_pos hdot] at h ⊢
        exact ih h
      · simp only [if_neg hdot] at h ⊢
        rw [ih h, List.append_assoc]

/-- A clear way starts deep enough. -/
theorem net_up_le (h : Clear loc cs) : (net cs).up ≤ loc.length := by
  induction cs using List.reverseRecOn with
  | nil => exact Nat.zero_le _
  | append_singleton cs c ih =>
    obtain ⟨hclear, hlast⟩ := clear_append.mp h
    have hle := ih hclear
    rw [net_concat, Net.step]
    by_cases hup : c = dotdot
    · rw [if_pos hup]
      by_cases hdown : (net cs).down = []
      · have hne := hlast.1 hup
        rw [resolve_eq_net hle, hdown, List.append_nil] at hne
        have hpos := List.length_pos_iff.mpr hne
        rw [List.length_take] at hpos
        rw [if_pos hdown]
        dsimp only
        omega
      · rw [if_neg hdown]
        exact hle
    · rw [if_neg hup]
      split <;> exact hle

theorem net_length (cs : List Component) :
    (net cs).down.length + cs.count dotdot = (net cs).up + (names cs).length := by
  induction cs using List.reverseRecOn with
  | nil => rfl
  | append_singleton cs c ih =>
    rw [net_concat, Net.step, List.count_append, names, List.filter_append, List.length_append]
    rw [names] at ih
    by_cases hup : c = dotdot
    · have hcount : [c].count dotdot = 1 := by simp [hup]
      have hnames : ([c].filter fun c => c ≠ dot ∧ c ≠ dotdot).length = 0 := by simp [hup]
      rw [if_pos hup, hcount, hnames]
      by_cases hdown : (net cs).down = []
      · rw [hdown] at ih
        rw [if_pos hdown, hdown]
        simp only [List.length_nil] at ih ⊢
        omega
      · have hpos := List.length_pos_iff.mpr hdown
        rw [if_neg hdown]
        simp only [List.length_dropLast]
        omega
    · have hcount : [c].count dotdot = 0 := by simp [hup]
      rw [if_neg hup, hcount]
      by_cases hdot : c = dot
      · have hnames : ([c].filter fun c => c ≠ dot ∧ c ≠ dotdot).length = 0 := by simp [hdot]
        rw [if_pos hdot, hnames]
        exact ih
      · have hnames : ([c].filter fun c => c ≠ dot ∧ c ≠ dotdot).length = 1 := by
          simp [hdot, hup]
        rw [if_neg hdot, hnames]
        simp only [List.length_append, List.length_singleton]
        omega

theorem resolve_twice (h : Clear loc cs) (h' : Clear (resolve loc cs) cs) :
    resolve (resolve loc cs) cs = resolve loc cs ↔ Balanced cs := by
  have hle := net_up_le h
  have hle' := net_up_le h'
  have hnet := net_length cs
  have honce := resolve_eq_net hle
  have hlen : (resolve loc cs).length + (net cs).up = loc.length + (net cs).down.length := by
    rw [honce, List.length_append, List.length_take]
    omega
  rw [Balanced, resolve_eq_net hle']
  constructor
  · intro heq
    have hlen' := congrArg List.length heq
    rw [List.length_append, List.length_take] at hlen'
    omega
  · intro hbal
    have hstart : (resolve loc cs).length - (net cs).up =
        (loc.take (loc.length - (net cs).up)).length := by
      rw [List.length_take]
      omega
    rw [hstart, honce, List.take_left]

end Net

end Lib.Path
