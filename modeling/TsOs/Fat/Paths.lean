import TsOs.Fat.Lookup
import TsOs.Fat.Tokens

/-!
# Paths

A path is looked up component by component. The components are the pieces between
slashes, without the empty ones; `strtok` cuts them off one at a time, and the two
functions that split a path for creation separate the last one. Two names are the same
to the driver when they have the same key.
-/

namespace TsOs.Fat
open ByteMemory Cutting

/-- The components of a path. -/
def components (path : List UInt8) : List (List UInt8) := (path.splitOn slash).filter (· ≠ [])

/-- The name under which an entry is stored: eight characters in upper case, padded with spaces. -/
def key (name : List UInt8) : List UInt8 :=
  (name.take 8).map upperCase ++ List.replicate (8 - name.length) space

/-- The first eight characters of an entry. -/
def entKey (e : DirEnt) : List UInt8 := (List.range 8).map e

variable {path : List UInt8}

/-! ## Cutting off components -/

theorem components_of_not_mem {t : List UInt8} (h : slash ∉ t) :
    components t = if t = [] then [] else [t] := by
  have hsplit : t.splitOn slash = [t] := by
    rw [List.splitOn_eq_splitOnP]
    refine List.splitOnP_eq_singleton fun x hx => beq_eq_false_iff_ne.mpr ?_
    rintro rfl
    exact h hx
  unfold components
  rw [hsplit]
  by_cases ht : t = []
  · simp [ht]
  · simp [ht]

theorem components_append (p q : List UInt8) :
    components (p ++ slash :: q) = components p ++ components q := by
  have hsplit : (p ++ slash :: q).splitOnP (· == slash) =
      p.splitOnP (· == slash) ++ q.splitOnP (· == slash) :=
    List.splitOnP_append_cons p q (beq_self_eq_true slash)
  unfold components
  rw [List.splitOn_eq_splitOnP, hsplit, List.filter_append]
  rfl

theorem components_nil : components [] = [] := rfl

theorem components_slash (q : List UInt8) : components (slash :: q) = components q :=
  components_append [] q

/-- The empty path and those of slashes have no components. -/
theorem components_eq_nil_iff : components path = [] ↔ ∀ x ∈ path, x = slash := by
  induction path with
  | nil => simp [components_nil]
  | cons x q ih =>
      by_cases hx : x = slash
      · subst hx
        rw [components_slash, ih]
        simp
      · refine ⟨fun h => absurd h ?_, fun h => absurd (h x List.mem_cons_self) hx⟩
        by_cases hmem : slash ∈ x :: q
        · obtain ⟨t, r, heq, ht⟩ := List.eq_append_cons_of_mem hmem
          have htne : t ≠ [] := by
            rintro rfl
            exact hx (List.cons.inj heq).1
          rw [heq, components_append, components_of_not_mem ht, if_neg htne]
          simp
        · rw [components_of_not_mem hmem, if_neg (List.cons_ne_nil _ _)]
          simp

theorem of_mem_components {c : List UInt8} (hc : c ∈ components path) : c ≠ [] ∧ slash ∉ c := by
  induction hlen : path.length using Nat.strong_induction_on generalizing path with
  | _ n ih =>
      by_cases hmem : slash ∈ path
      · obtain ⟨t, r, rfl, ht⟩ := List.eq_append_cons_of_mem hmem
        rw [List.length_append, List.length_cons] at hlen
        rw [components_append] at hc
        rcases List.mem_append.mp hc with hc | hc
        · exact ih t.length (by omega) hc rfl
        · exact ih r.length (by omega) hc rfl
      · rw [components_of_not_mem hmem] at hc
        split at hc
        next => exact absurd hc List.not_mem_nil
        next hne =>
          obtain rfl := List.mem_singleton.mp hc
          exact ⟨hne, hmem⟩

/-- The path from the root with the given components. -/
def joinPath (cs : List (List UInt8)) : List UInt8 := cs.flatMap (slash :: ·)

theorem components_joinPath {cs : List (List UInt8)} (h : ∀ c ∈ cs, c ≠ [] ∧ slash ∉ c) :
    components (joinPath cs) = cs := by
  induction cs with
  | nil => rfl
  | cons c cs ih =>
      obtain ⟨hne, hmem⟩ := h c List.mem_cons_self
      have ih := ih fun x hx => h x (List.mem_cons_of_mem _ hx)
      have hjoin : joinPath (c :: cs) = slash :: (c ++ joinPath cs) := rfl
      have hone : components c = [c] := by rw [components_of_not_mem hmem, if_neg hne]
      rw [hjoin, components_slash]
      cases cs with
      | nil =>
          have hnil : joinPath [] = [] := rfl
          rw [hnil, List.append_nil, hone]
      | cons c' cs =>
          have hjoin' : joinPath (c' :: cs) = slash :: (c' ++ joinPath cs) := rfl
          rw [hjoin', components_slash] at ih
          rw [hjoin', components_append, hone, ih]
          rfl

/-- The components are the pieces that `strtok` yields with a slash as the delimiter. -/
theorem components_eq_pieces (path : List UInt8) : components path = pieces [slash] path := by
  rw [pieces, cut_singleton]
  rfl

/-- `strtok` cuts off the first component. -/
theorem strtok_slash (path : List UInt8) :
    (components path = [] ∧ strtok path [slash] = ([], none)) ∨
      ∃ c rest next, components path = c :: rest ∧ strtok path [slash] = (c, next) ∧ c ≠ [] ∧
        ((next = none ∧ rest = []) ∨
          ∃ p, next = some p ∧ p.length < path.length ∧ components p = rest) := by
  rw [components_eq_pieces]
  rcases strtok_pieces (List.cons_ne_nil slash []) path with hnil |
    ⟨c, rest, next, hcons, htok, hnext⟩
  · exact Or.inl hnil
  · have hc : c ≠ [] := of_mem_pieces (hcons ▸ List.mem_cons_self)
    refine Or.inr ⟨c, rest, next, hcons, htok, hc, hnext.imp_right ?_⟩
    rintro ⟨p, hp, hlt, hrest, -⟩
    exact ⟨p, hp, hlt, (components_eq_pieces p).trans hrest⟩

/-! ## Looking up components -/

variable (v : Fat16Volume) (fuel : Nat)

/-- The lookup of `fat16_find` over a list of components. -/
def findComponents : Fat16File → List (List UInt8) → FatM (Option Fat16File)
  | file, [] => return some file
  | file, c :: cs =>
      if 16 ≤ c.length then FatM.stop .fault
      else do
        match ← fatSearchFile v fuel file c file.dirent.startCluster with
        | none => return none
        | some file => findComponents file cs

theorem findLoop_eq {n : Nat} {file : Fat16File} {path : List UInt8} (h : path.length < n) :
    findLoop v fuel n file path = findComponents v fuel file (components path) := by
  induction n generalizing file path with
  | zero => omega
  | succ n ih =>
      rw [findLoop]
      rcases strtok_slash path with ⟨hnil, htok⟩ | ⟨c, rest, next, hcons, htok, hc, hnext⟩
      · rw [hnil, htok]
        rfl
      · rw [hcons, htok, findComponents]
        dsimp only
        rw [if_neg hc]
        split
        · rfl
        · congr 1
          funext found
          cases found with
          | none => rfl
          | some f =>
              rcases hnext with ⟨rfl, rfl⟩ | ⟨p, rfl, hlt, rfl⟩
              · rfl
              · exact ih (by omega)

/-! ## Splitting off the last component -/

theorem foldl_last {p : Nat → Prop} [DecidablePred p] {n k : Nat} (hk : k < n) (hp : p k)
    (hlast : ∀ j, k < j → j < n → ¬p j) :
    (List.range n).foldl (fun d i => if p i then some i else d) none = some k := by
  induction n with
  | zero => omega
  | succ n ih =>
      rw [List.range_succ, List.foldl_append, List.foldl_cons, List.foldl_nil]
      rcases Nat.eq_or_lt_of_le (Nat.le_of_lt_succ hk) with rfl | hlt
      · rw [if_pos hp]
      · rw [if_neg (hlast n hlt (Nat.lt_succ_self n))]
        exact ih hlt fun j hj hjn => hlast j hj (by omega)

/-- The last slash of a path that is not its last character. -/
theorem exists_lastSlash {rest : List UInt8} (h : rest ≠ []) :
    ∃ q t x, slash :: rest = q ++ slash :: (t ++ [x]) ∧ slash ∉ t := by
  obtain ⟨init, x, hinit⟩ : ∃ init x, rest = init ++ [x] :=
    ⟨rest.dropLast, rest.getLast h, (List.dropLast_append_getLast h).symm⟩
  have hmem : slash ∈ (slash :: init).reverse := by simp
  obtain ⟨t, q, heq, ht⟩ := List.eq_append_cons_of_mem hmem
  have hrev : slash :: init = q.reverse ++ slash :: t.reverse := by
    rw [← List.reverse_reverse (slash :: init), heq]
    simp
  refine ⟨q.reverse, t.reverse, x, ?_, by simpa using ht⟩
  rw [hinit, ← List.cons_append, hrev]
  simp

theorem getBasedir_eq {q t : List UInt8} {x : UInt8} (ht : slash ∉ t) :
    getBasedir (q ++ slash :: (t ++ [x])) = some (q ++ [slash]) := by
  have hlast : lastSlash (q ++ slash :: (t ++ [x])) = some q.length := by
    refine foldl_last (by simp) ⟨?_, by simp⟩ ?_
    · simp [List.getD_eq_getElem?_getD]
    · rintro j hj - ⟨hslash, hlt⟩
      obtain ⟨k, rfl⟩ : ∃ k, j = q.length + (k + 1) := ⟨j - q.length - 1, by omega⟩
      have hk : k < t.length := by
        simp only [List.length_append, List.length_cons, List.length_nil] at hlt
        omega
      rw [List.getD_eq_getElem?_getD, List.getElem?_append_right (by omega),
        Nat.add_sub_cancel_left, List.getElem?_cons_succ, List.getElem?_append_left hk,
        List.getElem?_eq_getElem hk] at hslash
      exact ht (hslash ▸ List.getElem_mem hk)
  unfold getBasedir
  rw [hlast, Option.map_some, List.append_cons, List.take_append_of_le_length (by simp),
    List.take_of_length_le (by simp)]

theorem getFilename_eq {q u z : List UInt8} (hz : ∀ y ∈ z, y = slash) (hu : slash ∉ u)
    (hne : u ≠ []) : getFilename (q ++ slash :: (u ++ z)) = some u := by
  have hdrop : (q ++ slash :: (u ++ z)).reverse.dropWhile (· = slash) =
      u.reverse ++ slash :: q.reverse := by
    have hrev : (q ++ slash :: (u ++ z)).reverse = z.reverse ++ (u.reverse ++ slash :: q.reverse) := by
      simp
    rw [hrev, List.dropWhile_append_of_pos fun y hy => by simpa using hz y (List.mem_reverse.mp hy)]
    cases hcases : u.reverse with
    | nil => exact absurd (List.reverse_eq_nil_iff.mp hcases) hne
    | cons y r =>
        refine List.dropWhile_cons_of_neg ?_
        simp only [decide_eq_true_eq]
        rintro rfl
        exact hu (List.mem_reverse.mp (hcases ▸ List.mem_cons_self))
  have htake : (u.reverse ++ slash :: q.reverse).takeWhile (· ≠ slash) = u.reverse := by
    rw [List.takeWhile_append_of_pos, List.takeWhile_cons_of_neg (by simp), List.append_nil]
    intro y hy
    simp only [ne_eq, decide_eq_true_eq]
    rintro rfl
    exact hu (List.mem_reverse.mp hy)
  unfold getFilename
  dsimp only
  rw [hdrop, if_neg (by simp), htake, List.reverse_reverse]

/-- The last component of a path, with the slashes behind it. -/
theorem exists_lastComponent {rest : List UInt8} (h : components (slash :: rest) ≠ []) :
    ∃ q u z, slash :: rest = q ++ slash :: (u ++ z) ∧ slash ∉ u ∧ u ≠ [] ∧ ∀ y ∈ z, y = slash := by
  induction hlen : rest.length using Nat.strong_induction_on generalizing rest with
  | _ n ih =>
      have hrest : rest ≠ [] := by
        rintro rfl
        exact h rfl
      obtain ⟨q, t, x, heq, ht⟩ := exists_lastSlash hrest
      by_cases hx : x = slash
      · subst hx
        by_cases htne : t = []
        · -- The path ends with two slashes, of which the last one is dropped.
          subst htne
          obtain ⟨r, hr⟩ : ∃ r, q ++ [slash] = slash :: r := by
            cases q with
            | nil => exact ⟨[], rfl⟩
            | cons y q =>
                rw [List.cons_append] at heq
                rw [← List.head_eq_of_cons_eq heq]
                exact ⟨q ++ [slash], rfl⟩
          have hcut : slash :: rest = (slash :: r) ++ slash :: [] := by
            rw [heq, ← hr, List.nil_append, List.append_assoc]
            rfl
          have hcomps : components (slash :: r) ≠ [] := by
            rw [hcut, components_append, components_nil, List.append_nil] at h
            exact h
          have hshort : r.length < n := by
            have hlength := congrArg List.length hcut
            simp only [List.length_append, List.length_cons, List.length_nil] at hlength
            omega
          obtain ⟨q', u, z, heq', hu, hne, hz⟩ := ih r.length hshort hcomps rfl
          refine ⟨q', u, z ++ [slash], by rw [hcut, heq']; simp, hu, hne, fun y hy => ?_⟩
          rcases List.mem_append.mp hy with hy | hy
          · exact hz y hy
          · exact List.mem_singleton.mp hy
        · exact ⟨q, t, [slash], heq, ht, htne, fun y hy => List.mem_singleton.mp hy⟩
      · have htx : slash ∉ t ++ [x] := by
          simpa [eq_comm] using ⟨ht, hx⟩
        exact ⟨q, t ++ [x], [], by rw [heq, List.append_nil], htx, by simp, by simp⟩

theorem suffix_slashes_iff {p : List UInt8} {x : UInt8} :
    [slash, slash] <:+ p ++ [x] ↔ x = slash ∧ p.getLast? = some slash := by
  constructor
  · rintro ⟨s, hs⟩
    rw [List.append_cons] at hs
    obtain ⟨hp, hx⟩ := List.append_inj' hs rfl
    exact ⟨(List.cons.inj hx).1.symm, by rw [← hp, List.getLast?_append]; rfl⟩
  · rintro ⟨rfl, hlast⟩
    obtain ⟨s, rfl⟩ := List.getLast?_eq_some_iff.mp hlast
    exact ⟨s, by rw [List.append_assoc]; rfl⟩

/-- The two functions separate the last component, except in front of two slashes. -/
theorem split_path {rest : List UInt8} (h : components (slash :: rest) ≠ []) :
    ∃ base name, getBasedir (slash :: rest) = some base ∧ getFilename (slash :: rest) = some name ∧
      base.head? = some slash ∧
      if [slash, slash] <:+ slash :: rest then components base = components (slash :: rest)
      else components (slash :: rest) = components base ++ [name] := by
  obtain ⟨q, u, z, heq, hu, hne, hz⟩ := exists_lastComponent h
  have hname := getFilename_eq (q := q) hz hu hne
  have hhead : (q ++ [slash]).head? = some slash := by
    cases q with
    | nil => rfl
    | cons y q =>
        rw [List.cons_append] at heq
        rw [← List.head_eq_of_cons_eq heq]
        rfl
  have hbase : components (q ++ [slash]) = components q := by
    rw [components_append, components_nil, List.append_nil]
  have hcomps : components (q ++ slash :: u) = components q ++ [u] := by
    rw [components_append, components_of_not_mem hu, if_neg hne]
  rw [heq]
  rcases List.eq_nil_or_concat' z with rfl | ⟨z, y, rfl⟩
  · obtain ⟨t, x, rfl⟩ := (List.eq_nil_or_concat' u).resolve_left hne
    have ht : slash ∉ t := fun hmem => hu (List.mem_append_left _ hmem)
    have hx : x ≠ slash := fun hx => hu (hx ▸ List.mem_append_right _ (List.mem_singleton_self x))
    rw [List.append_nil] at hname ⊢
    refine ⟨q ++ [slash], t ++ [x], getBasedir_eq ht, hname, hhead, ?_⟩
    have hend : ¬[slash, slash] <:+ q ++ slash :: (t ++ [x]) := by
      rw [← List.cons_append, ← List.append_assoc, suffix_slashes_iff]
      exact fun hend => hx hend.1
    rw [if_neg hend, hbase, hcomps]
  · obtain rfl : y = slash := hz y (by simp)
    rcases List.eq_nil_or_concat' z with rfl | ⟨z, y, rfl⟩
    · rw [List.nil_append] at hname ⊢
      refine ⟨q ++ [slash], u, getBasedir_eq hu, hname, hhead, ?_⟩
      have hend : ¬[slash, slash] <:+ q ++ slash :: (u ++ [slash]) := by
        rw [← List.cons_append, ← List.append_assoc, suffix_slashes_iff]
        rintro ⟨-, hlast⟩
        obtain ⟨t, x, rfl⟩ := (List.eq_nil_or_concat' u).resolve_left hne
        rw [← List.cons_append, ← List.append_assoc, List.getLast?_append] at hlast
        exact hu (List.mem_append_right _ (List.mem_singleton.mpr (Option.some.inj hlast).symm))
      rw [if_neg hend, hbase, ← List.cons_append, ← List.append_assoc, components_append, hcomps,
        components_nil, List.append_nil]
    · obtain rfl : y = slash := hz y (by simp)
      have hcut : q ++ slash :: (u ++ (z ++ [slash] ++ [slash])) =
          (q ++ slash :: u ++ z) ++ slash :: ([] ++ [slash]) := by simp
      rw [hcut] at hname ⊢
      refine ⟨q ++ slash :: u ++ z ++ [slash], u, getBasedir_eq (by simp), hname, ?_, ?_⟩
      · cases q with
        | nil => rfl
        | cons y q => exact hhead
      · have hend : [slash, slash] <:+ (q ++ slash :: u ++ z) ++ slash :: ([] ++ [slash]) := ⟨_, rfl⟩
        rw [if_pos hend, components_append, components_append]
        rfl

/-! ## Keys -/

/-- A name that a file may be given: up to eight characters, of which the first is not the mark
of a deleted entry, and other than the two links of a directory. -/
structure Ordinary (name : List UInt8) : Prop where
  ne_nil : name ≠ []
  length_le : name.length ≤ 8
  nul_not_mem : 0 ∉ name
  head_ne : name.head? ≠ some 0xE5
  ne_dot : key name ≠ key [dot]
  ne_dotDot : key name ≠ key [dot, dot]

section Keys

variable {name : List UInt8} {e e' : DirEnt}

theorem entKey_eq_iff : entKey e = entKey e' ↔ ∀ i < 8, e i = e' i := by
  simp [entKey, List.map_inj_left]

theorem fatFilenameMatch_iff_entKey : fatFilenameMatch e e' = true ↔ entKey e = entKey e' :=
  fatFilenameMatch_iff.trans entKey_eq_iff.symm

variable (name) in
/-- The name is the C string at the start of the memory; any bytes may follow its terminator. -/
def NameAt (s : Mem) : Prop := 0 ∉ name ∧ ∀ i ≤ name.length, s i = name.getD i 0

theorem nameAt_cstr (hnul : 0 ∉ name) : NameAt name (cstr name) := ⟨hnul, fun _ _ => rfl⟩

/-- The terminator of the nine bytes that `fat16_pad` copies, or the zero that follows them. -/
theorem strlen_copied {s buf : Mem} (hs : NameAt name s) (hbuf : 8 < name.length → buf 9 = 0) :
    strlen (fun i => if i < 9 then s i else buf i) = min name.length 9 := by
  obtain ⟨hnul, hchars⟩ := hs
  have hfirst : firstIndex (fun i => decide ((fun i => if i < 9 then s i else buf i) i = 0)) 16 0 =
      some (min name.length 9) := by
    refine firstIndex_eq_some (Nat.zero_le _) (by omega) ?_ fun j _ hj => ?_
    · rcases Nat.lt_or_ge 8 name.length with hlong | hshort
      · rw [Nat.min_eq_right hlong]
        simpa using hbuf hlong
      · rw [Nat.min_eq_left (by omega)]
        simp [Nat.lt_succ_of_le hshort, hchars]
    · have hj9 : j < 9 := by omega
      have hjn : j < name.length := by omega
      have hget : s j = name[j] := by
        rw [hchars j hjn.le, List.getD_eq_getElem?_getD, List.getElem?_eq_getElem hjn]
        rfl
      simp only [hj9, if_true, hget, decide_eq_false_iff_not]
      intro hzero
      exact hnul (hzero ▸ List.getElem_mem hjn)
  unfold strlen
  rw [hfirst]
  rfl

/-- `fat16_filename_fmt` writes the first eight characters, padded, and a space, and nothing behind them. -/
theorem fat16FilenameFmt_nameAt {s buf : Mem} (hs : NameAt name s) (hbuf : 8 < name.length → buf 9 = 0)
    (i : Nat) : fat16FilenameFmt buf s i =
      if i < 8 then upperCase (name.getD i space) else if i = 8 then space else buf i := by
  have hpad : fat16Pad buf s i = if i < 8 then name.getD i space else if i = 8 then space else buf i := by
    unfold fat16Pad strPad
    dsimp only
    rw [strlen_copied hs hbuf]
    by_cases hi : i < 8
    · rw [if_neg (by omega), if_pos hi]
      by_cases hin : i < name.length
      · have hget : name.getD i 0 = name.getD i space := by
          simp only [List.getD_eq_getElem?_getD, List.getElem?_eq_getElem hin, Option.getD_some]
        rw [if_neg (by omega), if_neg (by omega), if_pos (by omega), hs.2 i hin.le, hget]
      · rw [if_pos (by omega), List.getD_eq_getElem?_getD, List.getElem?_eq_none (by omega),
          Option.getD_none]
    · rw [if_neg hi]
      by_cases hi8 : i = 8
      · rw [if_pos hi8, if_pos hi8]
      · rw [if_neg hi8, if_neg hi8, if_neg (fun hand => hi hand.2), if_neg (by omega : ¬i < 9)]
        split
        next hlast =>
          obtain rfl : i = 9 := by omega
          exact (hbuf (by omega)).symm
        next => rfl
  unfold fat16FilenameFmt
  rw [hpad]
  by_cases hi : i < 8
  · rw [if_pos (by omega), if_pos hi, if_pos hi]
  · rw [if_neg hi, if_neg hi]
    by_cases hi8 : i = 8
    · subst hi8
      rfl
    · rw [if_neg (by omega)]

theorem key_getD {i : Nat} (hi : i < 8) : (key name).getD i 0 = upperCase (name.getD i space) := by
  unfold key
  simp only [List.getD_eq_getElem?_getD]
  by_cases hin : i < name.length
  · rw [List.getElem?_append_left (by simp; omega), List.getElem?_map, List.getElem?_take_of_lt hi,
      List.getElem?_eq_getElem hin]
    rfl
  · rw [List.getElem?_append_right (by simp; omega), List.length_map, List.length_take,
      List.getElem?_replicate_of_lt (by omega), List.getElem?_eq_none (by omega)]
    rfl

/-- `fat16_filename_fmt` writes the key and a space, and nothing behind them. -/
theorem fat16FilenameFmt_apply {buf : Mem} (hlen : name.length ≤ 8) (hnul : 0 ∉ name) (i : Nat) :
    fat16FilenameFmt buf (cstr name) i =
      if i < 8 then (key name).getD i 0 else if i = 8 then space else buf i := by
  rw [fat16FilenameFmt_nameAt (nameAt_cstr hnul) fun hlong => absurd hlong (by omega)]
  by_cases hi : i < 8
  · rw [if_pos hi, if_pos hi, key_getD hi]
  · rw [if_neg hi, if_neg hi]

theorem key_length (name : List UInt8) : (key name).length = 8 := by
  unfold key
  rw [List.length_append, List.length_map, List.length_take, List.length_replicate]
  omega

theorem entKey_of_getD {k : List UInt8} (hk : k.length = 8) (h : ∀ i < 8, e i = k.getD i 0) :
    entKey e = k := by
  unfold entKey
  refine List.ext_getElem (by simp [hk]) fun i hi hi' => ?_
  rw [hk] at hi'
  rw [List.getElem_map, List.getElem_range, h i hi', List.getD_eq_getElem?_getD,
    List.getElem?_eq_getElem (by omega)]
  rfl

/-- Of a longer name, the first eight characters are looked up. -/
theorem entKey_fat16FilenameFmt (hnul : 0 ∉ name) :
    entKey (fat16FilenameFmt (fun _ => 0) (cstr name)) = key name := by
  refine entKey_of_getD (key_length name) fun i hi => ?_
  rw [fat16FilenameFmt_nameAt (nameAt_cstr hnul) fun _ => rfl, if_pos hi, key_getD hi]

end Keys

end TsOs.Fat
