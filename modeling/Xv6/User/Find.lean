import Xv6.Fs.Syscall

/-!
# `find.c`

The program walks a directory tree by path: it builds the path of each entry, asks for its type with `stat`,
and calls itself for a directory.  At each level it holds a descriptor that it reads from and, while it is
below, a second one that it does not use; `stat` needs another one for a moment.
-/

namespace Xv6.User.Find

open Lib Fs List

/-! ### The tree -/

mutual

/-- What an entry of a directory names; `free` is an entry with `inum` 0. -/
inductive Tree where
  | file | device | free
  | dir (es : Entries)

/-- The entries of a directory after `.` and `..`. -/
inductive Entries where
  | nil
  | cons (name : Name) (t : Tree) (es : Entries)

end

inductive Kind where
  | file | device | dir
  deriving DecidableEq

namespace Tree

def kind : Tree → Option Kind
  | .file => some .file
  | .device => some .device
  | .free => none
  | .dir _ => some .dir

def live (t : Tree) : Bool := t.kind.isSome

end Tree

namespace Entries

/-- The `struct dirent`s: whether the entry is in use, and the name. -/
def slots : Entries → List (Bool × Name)
  | .nil => []
  | .cons name t es => (t.live, name) :: es.slots

/-- `dirlookup`. -/
def lookup (name : Name) : Entries → Option Tree
  | .nil => none
  | .cons name' t es => if t.live ∧ name' = name then some t else es.lookup name

end Entries

/-- The walk of `namex` from `t`, whose ancestors are `up`, along the elements of a path. -/
def walk : List Tree → Tree → List Name → Option Tree
  | _, t, [] => some t
  | up, .dir es, name :: names =>
    if name = dot then walk up (.dir es) names
    else if name = dotdot then
      match up with
      | [] => walk [] (.dir es) names
      | t :: up => walk up t names
    else
      match es.lookup name with
      | some t => walk (.dir es :: up) t names
      | none => none
  | _, _, _ :: _ => none

/-- What a path names: `top`, not empty, names the directory `es`, whose ancestors are `up`. -/
def namei (up : List Tree) (top : Name) (es : Entries) (path : Name) : Option Tree :=
  if top ≠ [] ∧ top <+: path then walk up (.dir es) (elements path.length (path.drop top.length)) else none

/-! ### The program -/

inductive Line where
  | tooLong
  | noPath (path : Name)
  | cannotStat (path : Name)
  /-- A match. -/
  | found (path : Name)
  deriving DecidableEq

/-- The number of open descriptors, and what has been printed. -/
structure State where
  fds : ℕ
  out : List Line

/-- Recursion deeper than the fuel. -/
inductive Stop where
  | fuel

abbrev M (α : Type) : Type := Prog State Stop α

def print (l : Line) : M Unit := Prog.modify fun s => { s with out := s.out ++ [l] }

section

variable (names : Name → Option Tree)

/-- `open(path, 0)`: what the path names, if it can be opened. -/
def openPath (path : Name) : M (Option Tree) := do
  let s ← Prog.read
  if s.fds < NOFILE ∧ path.length < MAXPATH then
    match names path with
    | some t => do
      Prog.modify fun s => { s with fds := s.fds + 1 }
      pure (some t)
    | none => pure none
  else pure none

def close : M Unit := Prog.modify fun s => { s with fds := s.fds - 1 }

/-- `stat` of `ulib.c`. -/
def stat (path : Name) : M (Option Kind) := do
  match ← openPath names path with
  | none => pure none
  | some t => do
    close
    pure t.kind

/-- The part after the last slash. -/
def basename (path : Name) : Name := (path.reverse.takeWhile (· ≠ 47)).reverse

/-- `fmtname`: the pointer into the path, or the static buffer, padded with zeros. -/
def fmtname (path : Name) : Name :=
  if DIRSIZ ≤ (basename path).length then basename path
  else (basename path ++ List.replicate (DIRSIZ - (basename path).length) 0).takeWhile (· ≠ 0)

/-- The entries that `read` returns. -/
def dirents : Tree → List (Bool × Name)
  | .dir es => (true, dot) :: (true, dotdot) :: es.slots
  | _ => []

/-- A pass of the loop over the entries of the directory `path`; `recur` is the call of `find`. -/
def visit (name path : Name) (recur : Name → M Unit) (de : Bool × Name) : M Unit :=
  if de.1 = false then pure ()
  else do
    let buf := path ++ 47 :: de.2
    match ← stat names buf with
    | none => print (.cannotStat buf)
    | some .file => if fmtname buf = name then print (.found buf) else pure ()
    | some .dir =>
      if fmtname buf ≠ dot ∧ fmtname buf ≠ dotdot then do
        let fd2 ← openPath names buf
        recur buf
        if fd2.isSome then close else pure ()
      else pure ()
    | some .device => pure ()

def find (name : Name) : ℕ → Name → M Unit
  | 0, _ => Prog.stop .fuel
  | fuel + 1, path =>
    if 512 < path.length + 1 + DIRSIZ + 1 then print .tooLong
    else do
      match ← openPath names path with
      | none => print (.noPath path)
      | some t => do
        Prog.eachM (visit names name path (find name fuel)) (dirents t)
        close

end

/-- The paths printed as matches. -/
def found (out : List Line) : List Name :=
  out.filterMap fun
    | .found path => some path
    | _ => none

/-! ### What should be found -/

namespace Entries

def Mem (name : Name) (t : Tree) : Entries → Prop
  | .nil => False
  | .cons name' t' es => name' = name ∧ t' = t ∨ es.Mem name t

end Entries

/-- `q` is the path of a regular file with entry name `name`, `k` levels below the directory `path`. -/
inductive Match (name : Name) : Name → Entries → Name → ℕ → Prop
  | here {path : Name} {es : Entries} : es.Mem name .file → Match name path es (path ++ 47 :: name) 0
  | inside {path : Name} {es sub : Entries} {dir q : Name} {k : ℕ} : es.Mem dir (.dir sub) →
      Match name (path ++ 47 :: dir) sub q k → Match name path es q (k + 1)

/-- A name that an entry may have. -/
structure Valid (name : Name) : Prop where
  ne : name ≠ []
  size : name.length ≤ DIRSIZ
  slash : 47 ∉ name
  zero : 0 ∉ name
  dot : name ≠ dot
  dotdot : name ≠ dotdot

namespace Entries

/-- The names in use. -/
def names : Entries → List Name
  | .nil => []
  | .cons name t es => if t.live then name :: es.names else es.names

end Entries

mutual

/-- The names in the tree are valid, those of a directory differ, and the paths are short. -/
def Tree.Ok (path : Name) : Tree → Prop
  | .dir es => path.length + 3 < MAXPATH ∧ es.Ok path
  | _ => True

def Entries.Ok (path : Name) : Entries → Prop
  | .nil => True
  | .cons name t es =>
    (t.live = true → Valid name ∧ (path ++ 47 :: name).length < MAXPATH ∧ name ∉ es.names) ∧
      t.Ok (path ++ 47 :: name) ∧ es.Ok path

end

/-! ### Paths -/

/-- An element of a path. -/
structure Elem (e : Name) : Prop where
  ne : e ≠ []
  size : e.length ≤ DIRSIZ
  slash : 47 ∉ e

variable {e : Name} {names : Name → Option Tree} {recur : Name → M Unit}

lemma Valid.elem (h : Valid e) : Elem e := ⟨h.ne, h.size, h.slash⟩

lemma elem_dot : Elem dot := ⟨by decide, by decide, by decide⟩

lemma elem_dotdot : Elem dotdot := ⟨by decide, by decide, by decide⟩

/-- The elements, each after a slash. -/
def join (es : List Name) : Name := es.flatMap fun e => 47 :: e

lemma join_append (es : List Name) (e : Name) : join (es ++ [e]) = join es ++ 47 :: e := by
  simp [join]

lemma length_le_join (es : List Name) : es.length ≤ (join es).length := by
  induction es with
  | nil => exact le_rfl
  | cons e es ih =>
    rw [join, flatMap_cons, length_append, length_cons, length_cons]
    rw [join] at ih
    omega

lemma takeWhile_append_slash (h : 47 ∉ e) {tail : Name} (ht : tail = [] ∨ tail.head? = some 47) :
    (e ++ tail).takeWhile (· ≠ 47) = e ∧ (e ++ tail).dropWhile (· ≠ 47) = tail := by
  have hall : ∀ x ∈ e, decide (x ≠ 47) = true := fun x hx => decide_eq_true fun h47 => h (h47 ▸ hx)
  rw [takeWhile_append_of_pos hall, dropWhile_append_of_pos hall]
  obtain rfl | ht := ht
  · simp
  · obtain ⟨b, tail, rfl⟩ : ∃ b t, tail = b :: t := exists_cons_of_ne_nil (by rintro rfl; cases ht)
    obtain rfl : b = 47 := Option.some.inj ht
    simp

lemma elements_dropWhile (fuel : ℕ) (path : Name) : elements fuel (path.dropWhile (· = 47)) = elements fuel path := by
  cases fuel with
  | zero => rfl
  | succ fuel =>
    have hskip : skipelem (path.dropWhile (· = 47)) = skipelem path := by
      unfold skipelem
      rw [dropWhile_idempotent]
    rw [elements, elements, hskip]

lemma elements_join {es : List Name} (h : ∀ e ∈ es, Elem e) (fuel : ℕ) (hfuel : es.length ≤ fuel) :
    elements fuel (join es) = es := by
  induction es generalizing fuel with
  | nil =>
    cases fuel with
    | zero => rfl
    | succ fuel => rfl
  | cons e es ih =>
    have he := h e mem_cons_self
    obtain ⟨fuel, rfl⟩ : ∃ n, fuel = n + 1 := ⟨fuel - 1, by simp at hfuel; omega⟩
    have htail : join es = [] ∨ (join es).head? = some 47 := by
      cases es with
      | nil => exact .inl rfl
      | cons e' es => exact .inr rfl
    obtain ⟨b, e', rfl⟩ : ∃ b t, e = b :: t := exists_cons_of_ne_nil he.ne
    have hb : b ≠ 47 := fun hb => he.slash (hb ▸ mem_cons_self)
    have hlead : (join ((b :: e') :: es)).dropWhile (· = 47) = (b :: e') ++ join es := by
      simp [join, hb]
    obtain ⟨htake, hdrop⟩ := takeWhile_append_slash he.slash htail
    have hskip : skipelem (join ((b :: e') :: es)) = some (b :: e', (join es).dropWhile (· = 47)) := by
      unfold skipelem
      simp only [hlead]
      rw [if_neg (by simp), htake, hdrop, take_of_length_le he.size]
    rw [elements, hskip]
    dsimp only
    rw [elements_dropWhile, ih (fun e he => h e (mem_cons_of_mem _ he)) fuel (by simpa using hfuel)]

lemma basename_entry (path : Name) (hs : 47 ∉ e) : basename (path ++ 47 :: e) = e := by
  rw [basename, reverse_append, reverse_cons, append_assoc, singleton_append,
    (takeWhile_append_slash (by simpa using hs) (.inr rfl)).1, reverse_reverse]

lemma fmtname_entry (path : Name) (hs : 47 ∉ e) (hz : 0 ∉ e) : fmtname (path ++ 47 :: e) = e := by
  unfold fmtname
  rw [basename_entry path hs]
  split
  · rfl
  · have hall : ∀ x ∈ e, decide (x ≠ 0) = true := fun x hx => decide_eq_true fun h0 => hz (h0 ▸ hx)
    rw [takeWhile_append_of_pos hall]
    simp

/-- `path` names `t`, whose ancestors are `anc`, all of them directories. -/
structure Spot (up : List Tree) (top : Name) (es₀ : Entries) (path : Name) (anc : List Tree) (t : Tree) : Prop where
  named : top ≠ []
  dirs : ∀ a ∈ anc, a.kind = some .dir
  path : ∃ elems, (∀ e ∈ elems, Elem e) ∧ path = top ++ join elems ∧
    ∀ more, walk up (.dir es₀) (elems ++ more) = walk anc t more

section

variable {up anc : List Tree} {top path : Name} {es0 es : Entries} {t : Tree}

lemma spot_top (htop : top ≠ []) (h : ∀ a ∈ up, a.kind = some .dir) : Spot up top es0 top up (.dir es0) :=
  ⟨htop, h, [], by simp, by simp [join], fun _ => rfl⟩

lemma Spot.namei (h : Spot up top es0 path anc t) : namei up top es0 path = some t := by
  obtain ⟨elems, helems, rfl, hwalk⟩ := h.path
  have hlen := length_le_join elems
  rw [Find.namei, if_pos ⟨h.named, prefix_append _ _⟩, drop_left, elements_join helems _ (by rw [length_append]; omega)]
  have := hwalk []
  rw [append_nil] at this
  rw [this]
  cases t <;> rfl

lemma Spot.namei_entry (h : Spot up top es0 path anc t) (he : Elem e) :
    Find.namei up top es0 (path ++ 47 :: e) = walk anc t [e] := by
  obtain ⟨elems, helems, rfl, hwalk⟩ := h.path
  have hall : ∀ x ∈ elems ++ [e], Elem x := by
    intro x hx
    rcases mem_append.mp hx with hx | hx
    · exact helems x hx
    · rw [mem_singleton.mp hx]
      exact he
  have hlen : (elems ++ [e]).length ≤ (top ++ join (elems ++ [e])).length :=
    (length_le_join _).trans (suffix_append _ _).length_le
  rw [append_assoc, ← join_append, Find.namei, if_pos ⟨h.named, prefix_append _ _⟩, drop_left,
    elements_join hall _ hlen, hwalk]

lemma Spot.entry (h : Spot up top es0 path anc (.dir es)) (he : Valid e) (ht : es.lookup e = some t) :
    Spot up top es0 (path ++ 47 :: e) (.dir es :: anc) t := by
  obtain ⟨elems, helems, rfl, hwalk⟩ := h.path
  refine ⟨h.named, forall_mem_cons.mpr ⟨rfl, h.dirs⟩, elems ++ [e], ?_, ?_, fun more => ?_⟩
  · intro x hx
    rcases mem_append.mp hx with hx | hx
    · exact helems x hx
    · rw [mem_singleton.mp hx]
      exact he.elem
  · rw [join_append, append_assoc]
  · rw [append_assoc, hwalk, singleton_append]
    simp only [walk, if_neg he.dot, if_neg he.dotdot, ht]

end

/-! ### What is found -/

mutual

/-- The matches in the order of the search, `k` levels deep. -/
def Tree.upTo (name : Name) (k : ℕ) (path : Name) : Tree → List Name
  | .file => if k ≠ 0 ∧ basename path = name then [path] else []
  | .dir es => es.upTo name (k - 1) path
  | _ => []

def Entries.upTo (name : Name) (k : ℕ) (path : Name) : Entries → List Name
  | .nil => []
  | .cons entry t es => t.upTo name k (path ++ 47 :: entry) ++ es.upTo name k path

end

mutual

lemma Tree.upTo_zero (name path : Name) : ∀ t : Tree, t.upTo name 0 path = []
  | .file => by simp [Tree.upTo]
  | .device | .free => rfl
  | .dir es => Entries.upTo_zero name path es

lemma Entries.upTo_zero (name path : Name) : ∀ es : Entries, es.upTo name 0 path = []
  | .nil => rfl
  | .cons entry t es => by rw [Entries.upTo, Tree.upTo_zero name _ t, Entries.upTo_zero name path es]; rfl

end

lemma Entries.lookup_of_mem {path : Name} (ht : t.live = true) :
    ∀ es : Entries, es.Ok path → es.Mem e t → es.lookup e = some t ∧ e ∈ es.names
  | .nil, _, hm => hm.elim
  | .cons e' t' es, h, hm => by
    obtain ⟨hhead, -, htail⟩ := h
    rw [Entries.lookup, Entries.names]
    rcases hm with ⟨rfl, rfl⟩ | hm
    · rw [if_pos ⟨ht, rfl⟩, if_pos ht]
      exact ⟨rfl, mem_cons_self⟩
    · obtain ⟨hl, hn⟩ := Entries.lookup_of_mem ht es htail hm
      by_cases hlive : t'.live = true
      · have hne : e' ≠ e := by
          rintro rfl
          exact (hhead hlive).2.2 hn
        rw [if_neg fun hc => hne hc.2, if_pos hlive]
        exact ⟨hl, mem_cons_of_mem _ hn⟩
      · rw [if_neg fun hc => hlive hc.1, if_neg hlive]
        exact ⟨hl, hn⟩

lemma found_append (a b : List Line) : found (a ++ b) = found a ++ found b := filterMap_append

/-- `s'` has the descriptors of `s`, and `qs` has been printed as matches since. -/
def Printed (s : State) (qs : List Name) (s' : State) : Prop := s'.fds = s.fds ∧ found s'.out = found s.out ++ qs

lemma Printed.refl (s : State) : Printed s [] s := ⟨rfl, (append_nil _).symm⟩

lemma Printed.trans {qs rs : List Name} (h : Printed s qs s') (h' : Printed s' rs s'') :
    Printed s (qs ++ rs) s'' :=
  ⟨h'.1.trans h.1, by rw [h'.2, h.2, append_assoc]⟩

section

variable {up anc : List Tree} {top path name : Name} {es0 es : Entries} {t : Tree} {ok : Stop → Prop} {s : State}

lemma stat_spec (hlen : path.length < MAXPATH) (ht : names path = some t) :
    wp (stat names path) ok (fun r s' => s' = s ∧ r = if s.fds < NOFILE then t.kind else none) s := by
  simp only [stat, openPath, wp_bind, wp_read]
  by_cases hfd : s.fds < NOFILE
  · rw [if_pos ⟨hfd, hlen⟩, ht, if_pos hfd]
    simp only [close, wp_bind, wp_modify, wp_pure, Nat.add_sub_cancel]
    exact ⟨trivial, trivial⟩
  · rw [if_neg fun hc => hfd hc.1, if_neg hfd]
    exact ⟨rfl, rfl⟩

lemma visit_dots (he : e = dot ∨ e = dotdot) (hlen : path.length + 3 < MAXPATH)
    (ht : names (path ++ 47 :: e) = some t) (hdir : t.kind = some .dir) :
    wp (visit names name path recur (true, e)) ok (fun _ s' => Printed s [] s') s := by
  have hlen' : (path ++ 47 :: e).length < MAXPATH := by
    rcases he with rfl | rfl <;> simp [dot, dotdot] <;> omega
  have hfmt : fmtname (path ++ 47 :: e) = e := by
    rcases he with rfl | rfl <;> exact fmtname_entry path (by decide) (by decide)
  rw [visit, if_neg (by simp), wp_bind]
  refine (stat_spec hlen' ht).mono ?_
  rintro r s' ⟨rfl, rfl⟩
  by_cases hfd : s'.fds < NOFILE
  · rw [if_pos hfd, hdir]
    dsimp only
    rw [hfmt, if_neg (by rcases he with rfl | rfl <;> simp)]
    exact .refl s'
  · rw [if_neg hfd]
    dsimp only
    refine ⟨rfl, ?_⟩
    rw [found_append]
    rfl

lemma visit_entry (hspot : Spot up top es0 path anc (.dir es)) (hvalid : Valid e)
    (hlen : (path ++ 47 :: e).length < MAXPATH) (ht : es.lookup e = some t) (hlive : t.live = true)
    (hfds : s.fds = 16 - 2 * k) (hk : k ≤ 6) (hrecur : ∀ sub s, t = .dir sub → s.fds + 2 * k = 17 → 0 < k →
      wp (recur (path ++ 47 :: e)) ok (fun _ s' => Printed s (sub.upTo name (k - 1) (path ++ 47 :: e)) s') s) :
    wp (visit (namei up top es0) name path recur (true, e)) ok
      (fun _ s' => Printed s (t.upTo name k (path ++ 47 :: e)) s') s := by
  have hN : NOFILE = 16 := rfl
  have hname := (hspot.entry hvalid ht).namei
  have hfmt : fmtname (path ++ 47 :: e) = e := fmtname_entry path hvalid.slash hvalid.zero
  have hbase : basename (path ++ 47 :: e) = e := basename_entry path hvalid.slash
  rw [visit, if_neg (by simp), wp_bind]
  refine (stat_spec hlen hname).mono ?_
  rintro r s' ⟨rfl, rfl⟩
  by_cases hk0 : k = 0
  · subst hk0
    rw [if_neg (by omega), Tree.upTo_zero]
    dsimp only
    refine ⟨rfl, ?_⟩
    rw [found_append]
    rfl
  · rw [if_pos (by omega)]
    cases t with
    | free => cases hlive
    | device => exact .refl s'
    | file =>
      simp only [Tree.kind, hfmt, Tree.upTo, hbase]
      by_cases he : e = name
      · rw [if_pos he, if_pos ⟨hk0, he⟩]
        exact ⟨rfl, found_append _ _⟩
      · rw [if_neg he, if_neg fun hc => he hc.2]
        exact .refl s'
    | dir sub =>
      simp only [Tree.kind, Tree.upTo]
      rw [hfmt, if_pos ⟨hvalid.dot, hvalid.dotdot⟩]
      simp only [openPath, wp_bind, wp_read]
      rw [if_pos ⟨by omega, hlen⟩, hname]
      simp only [wp_bind, wp_modify, wp_pure]
      refine (hrecur sub { s' with fds := s'.fds + 1 } rfl (by simp only; omega) (by omega)).mono ?_
      rintro _ s'' ⟨hfd, hout⟩
      simp only [Option.isSome_some, if_true, close, wp_modify]
      exact ⟨by simp only [hfd]; omega, hout⟩

lemma visits_spec (hspot : Spot up top es0 path anc (.dir es)) (hk : k ≤ 6)
    (hrecur : ∀ e sub s, es.Mem e (.dir sub) → s.fds + 2 * k = 17 → 0 < k →
      wp (recur (path ++ 47 :: e)) ok (fun _ s' => Printed s (sub.upTo name (k - 1) (path ++ 47 :: e)) s') s) :
    ∀ (es' : Entries) (s : State), s.fds = 16 - 2 * k → es'.Ok path → (∀ e t, es'.Mem e t → es.Mem e t) → es.Ok path →
      wp (Prog.eachM (visit (namei up top es0) name path recur) es'.slots) ok
        (fun _ s' => Printed s (es'.upTo name k path) s') s
  | .nil, s, _, _, _, _ => Printed.refl s
  | .cons e t es', s, hfds, hok', hsub, hok => by
    obtain ⟨hhead, -, htail⟩ := hok'
    rw [Entries.slots, Prog.eachM, wp_bind, Entries.upTo]
    have hmem : es.Mem e t := hsub e t (.inl ⟨rfl, rfl⟩)
    have hfirst : wp (visit (namei up top es0) name path recur (t.live, e)) ok
        (fun _ s' => Printed s (t.upTo name k (path ++ 47 :: e)) s') s := by
      cases hlive : t.live with
      | false =>
        rw [visit, if_pos rfl]
        cases t with
        | free => exact Printed.refl s
        | _ => cases hlive
      | true =>
        obtain ⟨hvalid, hlen, -⟩ := hhead hlive
        refine visit_entry hspot hvalid hlen (Entries.lookup_of_mem hlive es hok hmem).1 hlive hfds hk ?_
        rintro sub s rfl h17 hpos
        exact hrecur e sub s hmem h17 hpos
    refine hfirst.mono fun _ s1 h1 => ?_
    refine (visits_spec hspot hk hrecur es' s1 (h1.1.trans hfds) htail (fun e t hm => hsub e t (.inr hm)) hok).mono ?_
    exact fun _ s2 h2 => h1.trans h2

lemma Entries.ok_of_mem {e : Name} {t : Tree} : ∀ es : Entries, es.Ok path → es.Mem e t → t.Ok (path ++ 47 :: e) ∧
    (t.live = true → Valid e)
  | .nil, _, hm => hm.elim
  | .cons e' t' es, h, hm => by
    rcases hm with ⟨rfl, rfl⟩ | hm
    · exact ⟨h.2.1, fun hl => (h.1 hl).1⟩
    · exact Entries.ok_of_mem es h.2.2 hm

/-- **The search** from a directory, with `k` levels left: it prints the matches of these levels. -/
lemma find_spec (k fuel : ℕ) (hfuel : k < fuel) (hk : k ≤ 6) (hspot : Spot up top es0 path anc (.dir es))
    (hok : Tree.Ok path (.dir es)) (hfds : s.fds + 2 * k = 15) :
    wp (find (namei up top es0) name fuel path) ok (fun _ s' => Printed s (es.upTo name k path) s') s := by
  induction k using Nat.strong_induction_on generalizing fuel path anc es s with
  | _ k ih =>
    have hN : NOFILE = 16 := rfl
    have hM : MAXPATH = 128 := rfl
    have hD : DIRSIZ = 14 := rfl
    obtain ⟨hlen, hes⟩ := hok
    obtain ⟨fuel, rfl⟩ : ∃ n, fuel = n + 1 := ⟨fuel - 1, by omega⟩
    rw [find, if_neg (by omega)]
    simp only [openPath, wp_bind, wp_read]
    rw [if_pos ⟨by omega, by omega⟩, hspot.namei]
    simp only [wp_bind, wp_modify, wp_pure, dirents, Prog.eachM]
    -- the entries `.` and `..`
    have hself : namei up top es0 (path ++ 47 :: dot) = some (.dir es) := by
      rw [hspot.namei_entry elem_dot]
      rfl
    have hparent : ∃ t, namei up top es0 (path ++ 47 :: dotdot) = some t ∧ t.kind = some .dir := by
      rw [hspot.namei_entry elem_dotdot]
      cases anc with
      | nil => exact ⟨.dir es, rfl, rfl⟩
      | cons a anc =>
        refine ⟨a, ?_, hspot.dirs a mem_cons_self⟩
        cases a <;> rfl
    obtain ⟨t, hparent, ht⟩ := hparent
    refine (visit_dots (.inl rfl) hlen hself rfl).mono fun _ s1 h1 => ?_
    rw [wp_bind]
    refine (visit_dots (.inr rfl) hlen hparent ht).mono fun _ s2 h2 => ?_
    have h2 := h1.trans h2
    have hfds2 : s2.fds = 16 - 2 * k := by
      have := h2.1
      simp only at this
      omega
    refine (visits_spec hspot hk ?_ es s2 hfds2 hes (fun _ _ hm => hm) hes).mono fun _ s3 h3 => ?_
    · intro e sub s hm h17 hpos
      obtain ⟨hsub, hvalid⟩ := Entries.ok_of_mem es hes hm
      have hlook := (Entries.lookup_of_mem rfl es hes hm).1
      exact ih (k - 1) (by omega) fuel (by omega) (by omega) (hspot.entry (hvalid rfl) hlook) hsub (by omega)
    · obtain ⟨hf, hout⟩ := h2.trans h3
      simp only [close, wp_modify]
      refine ⟨by simp only [hf]; omega, ?_⟩
      simpa using hout

end

/-! ### Completeness -/

section

variable {name path e q : Name} {t : Tree} {es : Entries} {k : ℕ}

lemma match_cons : Match name path (.cons e t es) q k ↔ (t = .file ∧ e = name ∧ k = 0 ∧ q = path ++ 47 :: e) ∨
      (∃ sub l, t = .dir sub ∧ k = l + 1 ∧ Match name (path ++ 47 :: e) sub q l) ∨ Match name path es q k := by
  constructor
  · intro h
    cases h with
    | here hm =>
      rcases hm with ⟨rfl, rfl⟩ | hm
      · exact .inl ⟨rfl, rfl, rfl, rfl⟩
      · exact .inr (.inr (.here hm))
    | inside hm h =>
      rcases hm with ⟨rfl, rfl⟩ | hm
      · exact .inr (.inl ⟨_, _, rfl, rfl, h⟩)
      · exact .inr (.inr (.inside hm h))
  · rintro (⟨rfl, rfl, rfl, rfl⟩ | ⟨sub, l, rfl, rfl, h⟩ | h)
    · exact .here (.inl ⟨rfl, rfl⟩)
    · exact .inside (.inl ⟨rfl, rfl⟩) h
    · cases h with
      | here hm => exact .here (.inr hm)
      | inside hm h => exact .inside (.inr hm) h

mutual

lemma Tree.mem_upTo : ∀ (t : Tree) (k : ℕ) (path e : Name), t.Ok (path ++ 47 :: e) → (t.live = true → Valid e) →
    (q ∈ t.upTo name k (path ++ 47 :: e) ↔ (t = .file ∧ e = name ∧ 0 < k ∧ q = path ++ 47 :: e) ∨
      ∃ sub l, t = .dir sub ∧ l + 1 < k ∧ Match name (path ++ 47 :: e) sub q l)
  | .device, k, path, e, _, _ | .free, k, path, e, _, _ => by simp [Tree.upTo]
  | .file, k, path, e, _, hv => by
    rw [Tree.upTo, basename_entry path (hv rfl).slash]
    by_cases hc : k ≠ 0 ∧ e = name
    · rw [if_pos hc]
      simp only [mem_singleton, reduceCtorEq, false_and, exists_false, or_false, true_and]
      exact ⟨fun h => ⟨hc.2, Nat.pos_of_ne_zero hc.1, h⟩, fun h => h.2.2⟩
    · rw [if_neg hc]
      simp only [not_mem_nil, reduceCtorEq, false_and, exists_false, or_false, true_and, false_iff]
      exact fun h => hc ⟨Nat.pos_iff_ne_zero.mp h.2.1, h.1⟩
  | .dir es, k, path, e, hok, _ => by
    rw [Tree.upTo, Entries.mem_upTo es (k - 1) (path ++ 47 :: e) hok.2]
    constructor
    · rintro ⟨l, hl, h⟩
      exact .inr ⟨es, l, rfl, by omega, h⟩
    · rintro (⟨h, -⟩ | ⟨sub, l, h, hl, hm⟩)
      · cases h
      · cases h
        exact ⟨l, by omega, hm⟩

lemma Entries.mem_upTo : ∀ (es : Entries) (k : ℕ) (path : Name), es.Ok path →
    (q ∈ es.upTo name k path ↔ ∃ l < k, Match name path es q l)
  | .nil, k, path, _ => by
    rw [Entries.upTo]
    refine ⟨fun h => absurd h not_mem_nil, ?_⟩
    rintro ⟨l, -, h⟩
    cases h with
    | here hm => exact hm.elim
    | inside hm h => exact hm.elim
  | .cons e t es, k, path, hok => by
    obtain ⟨hhead, ht, htail⟩ := hok
    rw [Entries.upTo, mem_append, Tree.mem_upTo t k path e ht fun hl => (hhead hl).1,
      Entries.mem_upTo es k path htail]
    constructor
    · rintro ((⟨h1, h2, hk, h3⟩ | ⟨sub, l, h1, hl, hm⟩) | ⟨l, hl, hm⟩)
      · exact ⟨0, hk, match_cons.mpr (.inl ⟨h1, h2, rfl, h3⟩)⟩
      · exact ⟨l + 1, hl, match_cons.mpr (.inr (.inl ⟨sub, l, h1, rfl, hm⟩))⟩
      · exact ⟨l, hl, match_cons.mpr (.inr (.inr hm))⟩
    · rintro ⟨l, hl, h⟩
      rcases match_cons.mp h with ⟨h1, h2, rfl, h3⟩ | ⟨sub, l', h1, rfl, hm⟩ | hm
      · exact .inl (.inl ⟨h1, h2, hl, h3⟩)
      · exact .inl (.inr ⟨sub, l', h1, hl, hm⟩)
      · exact .inr ⟨l, hl, hm⟩

end

lemma Match.through (h : Match name path es q k) : ∃ e rest, (∃ t, es.Mem e t ∧ t.live = true) ∧
    q = path ++ 47 :: (e ++ rest) ∧ (rest = [] ∨ rest.head? = some 47) := by
  induction h with
  | here hm => exact ⟨name, [], ⟨.file, hm, rfl⟩, by rw [append_nil], .inl rfl⟩
  | @inside path es sub dir q k hm h ih =>
    obtain ⟨e, rest, -, rfl, -⟩ := ih
    exact ⟨dir, 47 :: (e ++ rest), ⟨.dir sub, hm, rfl⟩, by simp, .inr rfl⟩

lemma Match.count_slash (h : Match name path es q k) (hok : es.Ok path) : q.count 47 = path.count 47 + k + 1 := by
  induction h with
  | here hm =>
    have hs := ((Entries.ok_of_mem _ hok hm).2 rfl).slash
    rw [count_append, List.count_cons_self, count_eq_zero.mpr hs]
  | @inside path es sub dir q k hm h ih =>
    obtain ⟨hsub, hvalid⟩ := Entries.ok_of_mem _ hok hm
    rw [ih hsub.2, count_append, List.count_cons_self, count_eq_zero.mpr (hvalid rfl).slash]
    omega

mutual

lemma Tree.nodup_upTo : ∀ (t : Tree) (k : ℕ) (path : Name), t.Ok path → (t.upTo name k path).Nodup
  | .device, k, path, _ | .free, k, path, _ => nodup_nil
  | .file, k, path, _ => by
    rw [Tree.upTo]
    split
    · exact nodup_singleton _
    · exact nodup_nil
  | .dir es, k, path, hok => Entries.nodup_upTo es (k - 1) path hok.2

lemma Entries.nodup_upTo : ∀ (es : Entries) (k : ℕ) (path : Name), es.Ok path → (es.upTo name k path).Nodup
  | .nil, k, path, _ => nodup_nil
  | .cons e t es, k, path, hok => by
    obtain ⟨hhead, ht, htail⟩ := hok
    rw [Entries.upTo]
    refine nodup_append.mpr ⟨Tree.nodup_upTo t k _ ht, Entries.nodup_upTo es k path htail, ?_⟩
    rintro q hq q' hq' rfl
    -- the one begins with the name of the first entry, the other with that of a later one
    obtain ⟨l', -, h'⟩ := (Entries.mem_upTo es k path htail).mp hq'
    obtain ⟨e', rest', ⟨t', hmem', hlive'⟩, hq', hrest'⟩ := h'.through
    have hnames' := (Entries.lookup_of_mem hlive' es htail hmem').2
    have hvalid' := (Entries.ok_of_mem es htail hmem').2 hlive'
    have hfirst : ∃ rest, q = path ++ 47 :: (e ++ rest) ∧ (rest = [] ∨ rest.head? = some 47) ∧ t.live = true := by
      rcases (Tree.mem_upTo t k path e ht fun hl => (hhead hl).1).mp hq with ⟨rfl, -, -, rfl⟩ | ⟨sub, l, rfl, -, hm⟩
      · exact ⟨[], by rw [append_nil], .inl rfl, rfl⟩
      · obtain ⟨e1, rest, -, rfl, -⟩ := hm.through
        exact ⟨47 :: (e1 ++ rest), by simp, .inr rfl, rfl⟩
    obtain ⟨rest, hq, hrest, hlive⟩ := hfirst
    obtain ⟨hvalid, -, hfresh⟩ := hhead hlive
    have heq : e ++ rest = e' ++ rest' := by
      rw [hq] at hq'
      exact (List.cons.inj (append_cancel_left hq')).2
    have htake := congrArg (List.takeWhile (· ≠ 47)) heq
    rw [(takeWhile_append_slash hvalid.slash hrest).1, (takeWhile_append_slash hvalid'.slash hrest').1] at htake
    exact hfresh (htake ▸ hnames')

end

end

/-- **`find` finds the files up to five levels below the top directory, each once, and no others.**  On a directory
tree with valid and distinct names and short paths the search ends, with its descriptors closed, and prints the
regular files with the given entry name at most five levels below `top`.  So all are found exactly if none is deeper.
-/
theorem find_exact (up : List Tree) (top name : Name) (htop : top ≠ []) (es : Entries) (hup : ∀ a ∈ up, a.kind = some .dir)
    (hok : Tree.Ok top (.dir es)) (fuel : ℕ) (hfuel : 7 ≤ fuel) :
    ∃ s, find (namei up top es) name fuel top ⟨3, []⟩ = .ok ((), s) ∧ s.fds = 3 ∧ (found s.out).Nodup ∧
      (∀ q, q ∈ found s.out ↔ ∃ k ≤ 5, Match name top es q k) ∧
      ((∀ q, q ∈ found s.out ↔ ∃ k, Match name top es q k) ↔ ∀ q k, Match name top es q k → k ≤ 5) := by
  have hfind : wp (find (namei up top es) name fuel top) (fun _ => False) (fun _ s' => Printed ⟨3, []⟩ (es.upTo name 6 top) s') ⟨3, []⟩ :=
    find_spec 6 fuel (by omega) le_rfl (spot_top htop hup) hok rfl
  obtain ⟨_, s, hrun, hfds, hout⟩ := hfind.returns
  have hout : found s.out = es.upTo name 6 top := hout
  have hmem : ∀ q, q ∈ found s.out ↔ ∃ k ≤ 5, Match name top es q k := by
    intro q
    rw [hout, Entries.mem_upTo es 6 top hok.2]
    exact ⟨fun ⟨l, hl, h⟩ => ⟨l, by omega, h⟩, fun ⟨l, hl, h⟩ => ⟨l, by omega, h⟩⟩
  refine ⟨s, hrun, hfds, ?_, hmem, ?_⟩
  · rw [hout]
    exact Entries.nodup_upTo es 6 top hok.2
  · constructor
    · intro hall q k h
      obtain ⟨k', hk', h'⟩ := (hmem q).mp ((hall q).mpr ⟨k, h⟩)
      have h1 := h.count_slash hok.2
      have h2 := h'.count_slash hok.2
      omega
    · intro hdeep q
      rw [hmem]
      exact ⟨fun ⟨k, _, h⟩ => ⟨k, h⟩, fun ⟨k, h⟩ => ⟨k, hdeep q k h, h⟩⟩

/-- The directory `d` with the file `f` in it. -/
def shallow : Entries := .cons [100] (.dir (.cons [102] .file .nil)) .nil

theorem find_exact_shallow : ∃ s, find (namei [] [46] shallow) [102] 7 [46] ⟨3, []⟩ = .ok ((), s) ∧
    [46, 47, 100, 47, 102] ∈ found s.out := by
  have hok : Tree.Ok [46] (.dir shallow) := by
    have hd : Valid [100] := by constructor <;> decide
    have hf : Valid [102] := by constructor <;> decide
    exact ⟨by decide, fun _ => ⟨hd, by decide, by decide⟩, ⟨by decide, fun _ => ⟨hf, by decide, by decide⟩, trivial, trivial⟩, trivial⟩
  obtain ⟨s, hs, -, -, hmem, -⟩ := find_exact [] [46] [102] (by decide) shallow (fun _ h => absurd h not_mem_nil) hok 7 le_rfl
  exact ⟨s, hs, (hmem _).mpr ⟨1, by decide, .inside (.inl ⟨rfl, rfl⟩) (.here (.inl ⟨rfl, rfl⟩))⟩⟩

/-- The file `f` in `k` directories `d`, each in the one before. -/
def nested : ℕ → Entries
  | 0 => .cons [102] .file .nil
  | k + 1 => .cons [100] (.dir (nested k)) .nil

/-- Six levels down the file is not found. -/
theorem find_misses : (∃ q, Match [102] [46] (nested 6) q 6) ∧
    ∃ s, find (namei [] [46] (nested 6)) [102] 7 [46] ⟨3, []⟩ = .ok ((), s) ∧ found s.out = [] := by
  have hmatch : ∀ (k : ℕ) (path : Name), ∃ q, Match [102] path (nested k) q k := by
    intro k
    induction k with
    | zero => exact fun path => ⟨_, .here (.inl ⟨rfl, rfl⟩)⟩
    | succ k ih =>
      intro path
      obtain ⟨q, hq⟩ := ih (path ++ [47, 100])
      exact ⟨q, .inside (.inl ⟨rfl, rfl⟩) hq⟩
  have hrun : ((find (namei [] [46] (nested 6)) [102] 7 [46] ⟨3, []⟩).toOption.map fun r => found r.2.out) = some [] := by
    decide +kernel
  refine ⟨hmatch 6 [46], ?_⟩
  cases hres : find (namei [] [46] (nested 6)) [102] 7 [46] ⟨3, []⟩ with
  | error e =>
    rw [hres] at hrun
    cases hrun
  | ok r =>
    rw [hres] at hrun
    exact ⟨r.2, rfl, Option.some.inj hrun⟩

end Xv6.User.Find
