import EnclaveOS.Fs.FileBounds
import EnclaveOS.Fs.InitrdBounds
import EnclaveOS.Fs.InitrdTree

/-!
# InitrdArchive - the files of a well-formed archive

An archive as its format describes it: a chain of headers, each followed by the blocks of its
contents, whose path is the prefix field, a slash and the name field.  The header loop copies a
field into a buffer of the size of the field, and so drops the last byte of a full one.
-/

namespace EnclaveOS

namespace BootModule

variable (m : BootModule)

/-- The text of a header field, which is ended by a zero byte unless it is full. -/
def fieldText (h offset count : Nat) : List Nat := (m.bytes h offset count).takeWhile fun c => c ≠ 0

def nameField (h : Nat) : List Nat := m.fieldText h 0 100
def prefixField (h : Nat) : List Nat := m.fieldText h 345 155

/-- A path without `./` in front. -/
def dropDot (path : List Nat) : List Nat := if path.take 2 = [46, slash] then path.drop 2 else path

/-- The path of an entry. -/
def archivePath (h : Nat) : List Nat :=
  dropDot (if m.prefixField h = [] then m.nameField h
    else m.prefixField h ++ slash :: m.nameField h)

/-- The names on the path of an entry. -/
def names (h : Nat) : List (List Nat) := components slash (m.archivePath h)

/-- The number that the size field spells in octal. -/
def sizeField (h : Nat) : Nat := (m.bytes h 124 11).foldl (fun acc c => acc * 8 + (c - 48)) 0

/-- The header behind the blocks of the contents. -/
def nextEntry (h : Nat) : Nat := h + 512 + (m.sizeField h + 511) / 512 * 512

/-- The entry is a regular file. -/
def IsRegular (h : Nat) : Prop := m.mem (wrap32 (h + 156)) = 48 ∨ m.mem (wrap32 (h + 156)) = 0

instance (h : Nat) : Decidable (m.IsRegular h) := inferInstanceAs (Decidable (_ ∨ _))

/-- A header whose entry lies in the module. -/
structure Header (h : Nat) : Prop where
  inside : m.nextEntry h ≤ physToVirt m.tarEnd
  magic : m.magicAt h = true
  named : m.mem h ≠ 0
  digits : ∀ c ∈ m.bytes h 124 11, 48 ≤ c ∧ c ≤ 55
  digitsEnd : ¬(48 ≤ m.mem (wrap32 (h + 135)) ∧ m.mem (wrap32 (h + 135)) ≤ 55)
  regular : m.IsRegular h → (m.nameField h).getLast? ≠ some slash

/-- The headers from one on; the archive ends with the module, or with a block of zeros. -/
def Chain : Nat → List Nat → Prop
  | h, [] => physToVirt m.tarEnd ≤ h ∨ ∀ i < 512, m.mem (wrap32 (h + i)) = 0
  | h, x :: hs => x = h ∧ m.Header h ∧ Chain (m.nextEntry h) hs

/-- The module holds an archive with these headers, behind some blocks of padding at most, and no
path of a file is used twice or leads to another entry. -/
structure Archive (hs : List Nat) : Prop where
  bounds : m.tarStart ≠ 0 ∧ m.tarStart < m.tarEnd
  mapped : m.tarEnd + 8192 ≤ 0x40000000
  start : ∃ k < 16, m.Chain (m.block k) hs ∧ ∀ j < k, m.magicAt (m.block j) = false
  fresh : ∀ h ∈ hs, m.IsRegular h → ∀ h' ∈ hs, h' ≠ h → ¬m.names h <+: m.names h'

/-- `vfs_read` of a node: one without file data has no callback `read` either. -/
def vfsRead (n : TreeNode) (offset size : Nat) : Int × List Byte :=
  initrdRead (n.data.map fun data => ⟨fun k => BitVec.ofNat 8 (m.mem (wrap32 (data + k))), n.size⟩)
    offset size

/-- The contents of an entry. -/
def contents (h : Nat) : List Byte :=
  (List.range (m.sizeField h)).map fun k => BitVec.ofNat 8 (m.mem (h + 512 + k))

/-- The path of an entry is found, and leads to a file with its contents. -/
def Exposed (t : VfsTree) (h : Nat) : Prop :=
  ∃ i n, t.findnode (slash :: m.archivePath h) = some i ∧ t[i]? = some n ∧ n.IsFile ∧
    n.size = m.sizeField h ∧ ∀ offset size, offset + size < 4294967296 →
      m.vfsRead n offset size = (((((m.contents h).drop offset).take size).length : Int),
        ((m.contents h).drop offset).take size)

/-- No field of a file is copied short, and no entry in front of it or the device directory takes
its path. -/
structure Exposable (hs : List Nat) : Prop where
  name : ∀ h ∈ hs, m.IsRegular h → (m.nameField h).length < 100
  pre : ∀ h ∈ hs, m.IsRegular h →
    (m.prefixField h).length < 155 ∨ (m.prefixField h).getLast? = some slash
  first : ∀ h ∈ hs, m.IsRegular h → ∀ h' ∈ hs, h' < h → ¬m.names h <+: (m.entryAt h').made
  free : ∀ h ∈ hs, m.IsRegular h →
    m.names h ≠ [devName] ∧ ¬[devName, consoleName] <+: m.names h

/-- Mounting ends, and every regular file of the archive is exposed by the tree. -/
def Exposes (hs : List Nat) : Prop :=
  (hs ≠ [] → ∃ fuel t, m.initrdInit fuel = some t) ∧
    ∀ fuel t, m.initrdInit fuel = some t → ∀ h ∈ hs, m.IsRegular h → m.Exposed t h

end BootModule

section Archive

variable {m : BootModule} {h fuel : Nat} {hs : List Nat}

open BootModule VfsTree

theorem strncpy_eq (offset count : Nat) :
    m.strncpy h offset count = (m.fieldText h offset count).take (count - 1) := by
  unfold BootModule.strncpy BootModule.fieldText BootModule.bytes
  rw [List.take_takeWhile, ← List.map_take, List.take_range'_of_length_ge (Nat.sub_le count 1)]

theorem fieldText_length_le (offset count : Nat) : (m.fieldText h offset count).length ≤ count := by
  refine (List.takeWhile_sublist _).length_le.trans ?_
  simp [BootModule.bytes]

theorem strncpy_name (m : BootModule) (h : Nat) :
    m.strncpy h 0 100 = (m.nameField h).take 99 := strncpy_eq 0 100

theorem strncpy_prefix (m : BootModule) (h : Nat) :
    m.strncpy h 345 155 = (m.prefixField h).take 154 := strncpy_eq 345 155

theorem nameField_length_le (m : BootModule) (h : Nat) : (m.nameField h).length ≤ 100 :=
  fieldText_length_le 0 100

theorem prefixField_length_le (m : BootModule) (h : Nat) : (m.prefixField h).length ≤ 155 :=
  fieldText_length_le 345 155

/-- The names of a prefix with a slash behind it. -/
def prefixNames (p : List Nat) : List (List Nat) :=
  if p = [46] then [] else components slash (dropDot p)

/-- The names of a prefix and a name joined. -/
def joinNames (p name : List Nat) : List (List Nat) :=
  if p = [] then components slash (dropDot name) else prefixNames p ++ components slash name

theorem dropDot_of_not_dot {path : List Nat} (h : path.take 2 ≠ [46, slash]) :
    dropDot path = path := if_neg h

theorem dropDot_length_le (path : List Nat) : (dropDot path).length ≤ path.length := by
  unfold dropDot
  split_ifs
  · exact (List.drop_sublist 2 path).length_le
  · exact le_rfl

theorem components_dropDot_append (p name : List Nat) :
    components slash (dropDot (p ++ slash :: name)) = prefixNames p ++ components slash name := by
  unfold prefixNames
  rcases p with _ | ⟨c, _ | ⟨c', p⟩⟩
  · have hnot : (slash :: name).take 2 ≠ [46, slash] := by
      cases name <;> simp [slash]
    rw [List.nil_append, dropDot_of_not_dot hnot, components_cons_sep]
    rfl
  · by_cases hc : c = 46
    · rw [hc, if_pos rfl]
      rfl
    · rw [if_neg (by simpa using hc), dropDot_of_not_dot (by simp [hc]),
        dropDot_of_not_dot (by simp), components_append_sep]
  · rw [if_neg (by simp)]
    by_cases hdot : c = 46 ∧ c' = slash
    · obtain ⟨rfl, rfl⟩ := hdot
      exact components_append_sep p name
    · rw [dropDot_of_not_dot (by simpa using hdot), dropDot_of_not_dot (by simpa using hdot),
        components_append_sep]

theorem prefixNames_concat_slash (p : List Nat) : prefixNames (p ++ [slash]) = prefixNames p := by
  have h := components_dropDot_append p []
  rw [components_nil, List.append_nil] at h
  rw [← h, prefixNames, if_neg]
  cases p with
  | nil => decide
  | cons c p => simp

theorem names_eq (m : BootModule) (h : Nat) :
    m.names h = joinNames (m.prefixField h) (m.nameField h) := by
  unfold BootModule.names BootModule.archivePath joinNames
  split_ifs
  · rfl
  · exact components_dropDot_append _ _

theorem components_fullPath (m : BootModule) (h : Nat) :
    components slash (dropDot (m.fullPath h)) =
      joinNames ((m.prefixField h).take 154) ((m.nameField h).take 99) := by
  unfold BootModule.fullPath joinNames
  dsimp only
  rw [strncpy_name, strncpy_prefix]
  generalize (m.prefixField h).take 154 = p
  generalize (m.nameField h).take 99 = name
  by_cases hnil : p = []
  · simp [hnil]
  · rw [if_neg hnil]
    by_cases hlast : p.getLast? = some slash
    · rw [if_neg (by simp [hlast])]
      obtain ⟨q, rfl⟩ : ∃ q, p = q ++ [slash] := List.getLast?_eq_some_iff.mp hlast
      rw [List.append_assoc, List.singleton_append, components_dropDot_append,
        prefixNames_concat_slash]
    · rw [if_pos ⟨hnil, hlast⟩, List.append_assoc, List.singleton_append,
        components_dropDot_append]

/-- The number of characters in names. -/
def weight (names : List (List Nat)) : Nat := names.flatten.length

theorem weight_append (a b : List (List Nat)) : weight (a ++ b) = weight a + weight b := by
  simp [weight]

theorem weight_components_concat {c : Nat} (hc : c ≠ slash) (path : List Nat) :
    weight (components slash (path ++ [c])) = weight (components slash path) + 1 := by
  simp [weight, components_flatten, List.filter_append, hc]

theorem dropDot_concat {path : List Nat} (hlen : 2 ≤ path.length) (c : Nat) :
    dropDot (path ++ [c]) = dropDot path ++ [c] := by
  unfold dropDot
  rw [List.take_append_of_le_length hlen, List.drop_append_of_le_length hlen]
  split_ifs <;> rfl

/-- A full field ends with a byte that is not copied. -/
theorem take_concat_of_full {l : List Nat} {n : Nat} (hfull : l.length = n + 1)
    (hlast : l.getLast? ≠ some slash) :
    ∃ c ≠ slash, l = l.take n ++ [c] ∧ (l.take n).length = n := by
  rcases List.eq_nil_or_concat l with rfl | ⟨q, c, rfl⟩
  · cases hfull
  · rw [List.concat_eq_append] at *
    have hq : q.length = n := by simpa using hfull
    have hc : c ≠ slash := by simpa using hlast
    refine ⟨c, hc, ?_, ?_⟩
    · rw [List.take_left' hq]
    · rw [List.take_left' hq, hq]

/-- Nothing that matters is lost of a prefix that is not full, or ends with a slash. -/
theorem prefixNames_take {p : List Nat} (hlen : p.length ≤ 155)
    (h : p.length < 155 ∨ p.getLast? = some slash) : prefixNames (p.take 154) = prefixNames p := by
  by_cases hshort : p.length < 155
  · rw [List.take_of_length_le (by omega)]
  · obtain ⟨q, rfl⟩ := List.getLast?_eq_some_iff.mp (h.resolve_left hshort)
    have hq : q.length = 154 := by
      rw [List.length_append, List.length_singleton] at hlen hshort
      omega
    rw [prefixNames_concat_slash, List.take_left' hq]

theorem weight_prefixNames_take {p : List Nat} (hfull : p.length = 155)
    (hlast : p.getLast? ≠ some slash) :
    weight (prefixNames (p.take 154)) < weight (prefixNames p) := by
  obtain ⟨c, hc, hp, hlen⟩ := take_concat_of_full (n := 154) hfull hlast
  have hlong : ∀ {q : List Nat}, 154 ≤ q.length → q ≠ [46] := by
    rintro q hq rfl
    simp at hq
  rw [prefixNames, if_neg (hlong (by omega)), prefixNames, if_neg (hlong (by omega))]
  conv_rhs => rw [hp]
  rw [dropDot_concat (by omega), weight_components_concat hc]
  exact Nat.lt_succ_self _

/-- Names of fields that are copied in full. -/
theorem joinNames_take {p name : List Nat} (hlen : p.length ≤ 155) (hname : name.length < 100)
    (hp : p.length < 155 ∨ p.getLast? = some slash) :
    joinNames (p.take 154) (name.take 99) = joinNames p name := by
  have hnil : p.take 154 = [] ↔ p = [] := by simp
  unfold joinNames
  rw [List.take_of_length_le (by omega : name.length ≤ 99), prefixNames_take hlen hp]
  simp only [hnil]

/-- Names of a full field have lost a character. -/
theorem weight_joinNames_take {p name : List Nat} (hlen : p.length ≤ 155)
    (hname : name.length ≤ 100) (hlast : name.getLast? ≠ some slash)
    (hfull : ¬(name.length < 100 ∧ (p.length < 155 ∨ p.getLast? = some slash))) :
    weight (joinNames (p.take 154) (name.take 99)) < weight (joinNames p name) := by
  have hnil : p.take 154 = [] ↔ p = [] := by simp
  have hcut : name.length = 100 →
      weight (components slash (name.take 99)) < weight (components slash name) ∧
      weight (components slash (dropDot (name.take 99))) <
        weight (components slash (dropDot name)) := by
    intro hn
    obtain ⟨c, hc, hsplit, hq⟩ := take_concat_of_full (n := 99) hn hlast
    constructor
    · conv_rhs => rw [hsplit]
      rw [weight_components_concat hc]
      exact Nat.lt_succ_self _
    · conv_rhs => rw [hsplit]
      rw [dropDot_concat (by omega), weight_components_concat hc]
      exact Nat.lt_succ_self _
  have hshort : name.length < 100 → name.take 99 = name :=
    fun hn => List.take_of_length_le (by omega)
  unfold joinNames
  simp only [hnil]
  by_cases hp : p = []
  · have hn : name.length = 100 := by
      by_contra hne
      exact hfull ⟨by omega, Or.inl (by simp [hp])⟩
    rw [if_pos hp, if_pos hp]
    exact (hcut hn).2
  · rw [if_neg hp, if_neg hp, weight_append, weight_append]
    have hname_le : weight (components slash (name.take 99)) ≤ weight (components slash name) := by
      by_cases hn : name.length < 100
      · rw [hshort hn]
      · exact (hcut (by omega)).1.le
    by_cases hpre : p.length < 155 ∨ p.getLast? = some slash
    · have hn : name.length = 100 := by
        by_contra hne
        exact hfull ⟨by omega, hpre⟩
      rw [prefixNames_take hlen hpre]
      exact Nat.add_lt_add_left (hcut hn).1 _
    · have hpre_lt := weight_prefixNames_take (by omega) (not_or.mp hpre).2
      exact Nat.add_lt_add_of_lt_of_le hpre_lt hname_le

theorem components_cleanPath (path : List Nat) :
    components slash (cleanPath path) = components slash (dropDot path) := by
  unfold BootModule.cleanPath
  change components slash (if (dropDot path).getLast? = some slash then (dropDot path).dropLast
    else dropDot path) = _
  split_ifs with hlast
  · obtain ⟨q, hq⟩ := List.getLast?_eq_some_iff.mp hlast
    rw [hq, List.dropLast_concat, components_append_sep, components_nil, List.append_nil]
  · rfl

/-- The names that the loop over a path makes, when none of them is cut. -/
theorem splitPath_eq (token path : List Nat) (hsep : slash ∉ token)
    (hlen : (token ++ path).length ≤ 255) :
    (splitPath token path).1 ++ (if (splitPath token path).2 = [] then []
      else [(splitPath token path).2]) = components slash (token ++ path) := by
  induction path generalizing token with
  | nil =>
    rw [List.append_nil] at hlen ⊢
    have htoken : token.take (vfsMaxFilename - 1) = token := List.take_of_length_le hlen
    rw [splitPath, htoken]
    by_cases hnil : token = []
    · rw [hnil]
      rfl
    · rw [components_name hnil hsep, if_neg hnil]
      rfl
  | cons c path ih =>
    rw [List.length_append, List.length_cons] at hlen
    rw [splitPath]
    by_cases hc : c = slash
    · have htoken : token.take (vfsMaxFilename - 1) = token :=
        List.take_of_length_le ((Nat.le_add_right ..).trans hlen)
      have hrest := ih [] (by simp) (by rw [List.nil_append]; omega)
      rw [List.nil_append] at hrest
      rw [if_pos hc, hc, components_append_sep, ← hrest]
      dsimp only
      by_cases hnil : token = []
      · rw [if_pos hnil, hnil, components_nil, List.nil_append]
      · rw [if_neg hnil, htoken, components_name hnil hsep, List.cons_append, List.singleton_append]
    · have hrest := ih (token ++ [c]) (by simp [hsep, Ne.symm hc]) (by simp; omega)
      rw [List.append_assoc, List.singleton_append] at hrest
      rw [if_neg hc, hrest]

/-- A path that does not end with a slash has a last name. -/
theorem splitPath_file_ne_nil (token path : List Nat) (hne : token ++ path ≠ [])
    (hlast : (token ++ path).getLast? ≠ some slash) : (splitPath token path).2 ≠ [] := by
  induction path generalizing token with
  | nil =>
    rw [List.append_nil] at hne
    simpa [splitPath, vfsMaxFilename] using hne
  | cons c path ih =>
    rw [splitPath]
    by_cases hc : c = slash
    · have hpath : path ≠ [] := by
        rintro rfl
        simp [hc] at hlast
      have hsame : (token ++ c :: path).getLast? = path.getLast? := by
        obtain ⟨last, hl⟩ := Option.ne_none_iff_exists'.mp (mt List.getLast?_eq_none_iff.mp hpath)
        rw [List.getLast?_append, List.getLast?_cons, hl]
        rfl
      rw [if_pos hc]
      exact ih [] hpath (by rwa [List.nil_append, ← hsame])
    · rw [if_neg hc]
      exact ih (token ++ [c]) (by simp) (by simpa using hlast)

theorem fullPath_length_le (m : BootModule) (h : Nat) : (m.fullPath h).length ≤ 254 := by
  have hname : (m.strncpy h 0 100).length ≤ 99 := by
    rw [strncpy_eq, List.length_take]
    exact Nat.min_le_left ..
  have hpre : (m.strncpy h 345 155).length ≤ 154 := by
    rw [strncpy_eq, List.length_take]
    exact Nat.min_le_left ..
  unfold BootModule.fullPath
  dsimp only
  split_ifs <;> simp <;> omega

theorem cleanPath_length_le (path : List Nat) : (cleanPath path).length ≤ path.length := by
  have hdrop := dropDot_length_le path
  unfold BootModule.cleanPath
  change (if (dropDot path).getLast? = some slash then (dropDot path).dropLast
    else dropDot path).length ≤ _
  split_ifs
  · exact (List.dropLast_sublist _).length_le.trans hdrop
  · exact hdrop

/-- A path that does not end with a slash is not empty without `./` either. -/
theorem cleanPath_last {path : List Nat} (hne : path ≠ []) (hlast : path.getLast? ≠ some slash) :
    cleanPath path ≠ [] ∧ (cleanPath path).getLast? ≠ some slash := by
  have hdrop : dropDot path ≠ [] ∧ (dropDot path).getLast? ≠ some slash := by
    by_cases hdot : path.take 2 = [46, slash]
    · have hsplit : path = [46, slash] ++ path.drop 2 := by
        rw [← hdot, List.take_append_drop]
      have hrest : path.drop 2 ≠ [] := by
        intro hnil
        rw [hsplit, hnil] at hlast
        exact hlast rfl
      rw [dropDot, if_pos hdot]
      refine ⟨hrest, ?_⟩
      rwa [hsplit, List.getLast?_append_of_ne_nil _ hrest] at hlast
    · rw [dropDot_of_not_dot hdot]
      exact ⟨hne, hlast⟩
  have hclean : cleanPath path = dropDot path := by
    unfold BootModule.cleanPath
    exact if_neg hdrop.2
  rwa [hclean]

/-- The names of the path of an entry, as the header loop splits it. -/
theorem entryAt_names (m : BootModule) (h : Nat) :
    (m.entryAt h).dirs ++ (if (m.entryAt h).file = [] then [] else [(m.entryAt h).file]) =
      joinNames ((m.prefixField h).take 154) ((m.nameField h).take 99) := by
  have hlen : ([] ++ cleanPath (m.fullPath h)).length ≤ 255 :=
    (cleanPath_length_le _).trans ((fullPath_length_le m h).trans (by decide))
  rw [← components_fullPath, ← components_cleanPath]
  exact splitPath_eq [] (cleanPath (m.fullPath h)) (by simp) hlen

theorem weight_made (he : (m.entryAt h).IsFile) : weight (m.entryAt h).made =
    weight (joinNames ((m.prefixField h).take 154) ((m.nameField h).take 99)) := by
  rw [made_of_isFile he, ← entryAt_names]
  unfold weight
  split_ifs with hfile
  · simp [hfile]
  · rfl

/-- A file is mounted under its path when no field is copied short. -/
theorem made_eq_names (hh : h < 4294967296) (hnamed : m.mem h ≠ 0) (hreg : m.IsRegular h)
    (hlast : (m.nameField h).getLast? ≠ some slash) (hname : (m.nameField h).length < 100)
    (hpre : (m.prefixField h).length < 155 ∨ (m.prefixField h).getLast? = some slash) :
    (m.entryAt h).IsFile ∧ (m.entryAt h).made = m.names h := by
  have hcopy : m.strncpy h 0 100 = m.nameField h := by
    rw [strncpy_name]
    exact List.take_of_length_le (by omega)
  have hne : m.nameField h ≠ [] := by
    have hfirst : wrap32 (h + 0) = h := Nat.mod_eq_of_lt hh
    unfold BootModule.nameField BootModule.fieldText BootModule.bytes
    rw [List.range'_succ, List.map_cons, hfirst, List.takeWhile_cons_of_pos (by simpa using hnamed)]
    exact List.cons_ne_nil _ _
  have hfull : m.fullPath h ≠ [] ∧ (m.fullPath h).getLast? ≠ some slash := by
    unfold BootModule.fullPath
    dsimp only
    rw [hcopy, List.getLast?_append_of_ne_nil _ hne]
    exact ⟨List.append_ne_nil_of_right_ne_nil _ hne, hlast⟩
  obtain ⟨hclean, hcleanLast⟩ := cleanPath_last hfull.1 hfull.2
  have he : (m.entryAt h).IsFile := ⟨hclean, hreg⟩
  have hfile : (m.entryAt h).file ≠ [] := splitPath_file_ne_nil [] _ hclean hcleanLast
  have hnames := entryAt_names m h
  rw [if_neg hfile, joinNames_take (prefixField_length_le m h) hname hpre, ← names_eq] at hnames
  exact ⟨he, (made_of_isFile he).trans hnames⟩

theorem foldl_wrap32 (digits : List Nat) :
    digits.foldl (fun acc c => wrap32 (acc * 8 + (c - 48))) 0 =
      wrap32 (digits.foldl (fun acc c => acc * 8 + (c - 48)) 0) := by
  induction digits using List.reverseRecOn with
  | nil => rfl
  | append_singleton digits c ih =>
    rw [List.foldl_append, List.foldl_append, List.foldl_cons, List.foldl_cons, List.foldl_nil,
      List.foldl_nil, ih]
    unfold wrap32
    omega

namespace BootModule.Header

variable (hd : m.Header h) (hmapped : m.tarEnd + 8192 ≤ 0x40000000)

include hd hmapped

theorem place_lt : h + 512 + m.sizeField h < 4294967296 ∧ m.nextEntry h < 4294967296 ∧
    h < BootModule.physToVirt m.tarEnd := by
  have hinside := hd.inside
  have hend : BootModule.physToVirt m.tarEnd = m.tarEnd + 0xC0000000 :=
    Nat.mod_eq_of_lt (by unfold kernelSpaceStart; omega)
  unfold BootModule.nextEntry at *
  omega

theorem size_eq : (m.entryAt h).size = m.sizeField h := by
  have hbytes : m.bytes h 124 12 = m.bytes h 124 11 ++ [m.mem (wrap32 (h + 135))] := by
    unfold BootModule.bytes
    rw [List.range'_concat, List.map_append]
    rfl
  have hdigits : (m.bytes h 124 12).takeWhile (fun c => 48 ≤ c ∧ c ≤ 55) = m.bytes h 124 11 := by
    rw [hbytes, List.takeWhile_append_of_pos (by simpa using hd.digits),
      List.takeWhile_cons_of_neg (by simpa using hd.digitsEnd), List.append_nil]
  change BootModule.parseOctal (m.bytes h 124 12) = _
  unfold BootModule.parseOctal
  rw [hdigits, foldl_wrap32]
  have hsmall := (hd.place_lt hmapped).1
  exact Nat.mod_eq_of_lt (by unfold BootModule.sizeField at hsmall; omega)

theorem data_eq : (m.entryAt h).data = h + 512 := by
  have hsmall := (hd.place_lt hmapped).1
  exact Nat.mod_eq_of_lt (by omega)

theorem next_eq :
    wrap32 (h + 512 + wrap32 ((m.entryAt h).size + 511) / 512 * 512) = m.nextEntry h := by
  obtain ⟨hsize, hnext, -⟩ := hd.place_lt hmapped
  rw [hd.size_eq hmapped]
  unfold BootModule.nextEntry at *
  unfold wrap32
  omega

end BootModule.Header

/-- The header loop visits the headers of the archive. -/
theorem walkHeaders_eq (hmapped : m.tarEnd + 8192 ≤ 0x40000000) (hchain : m.Chain h hs)
    (hh : h < 4294967296) :
    m.walkHeaders fuel h = if hs.length < fuel then some (hs.map m.entryAt) else none := by
  induction hs generalizing h fuel with
  | nil =>
    cases fuel with
    | zero => rfl
    | succ fuel =>
      have hfuel : ([] : List Nat).length < fuel + 1 := Nat.succ_pos fuel
      rw [BootModule.walkHeaders, if_pos hfuel]
      rcases hchain with hend | hzero
      · rw [if_pos hend]
        rfl
      · have hname : m.mem h = 0 := by
          have hfirst := hzero 0 (by decide)
          rwa [Nat.add_zero, wrap32, Nat.mod_eq_of_lt hh] at hfirst
        rw [if_pos hname, if_pos (hzero 257 (by decide)), ite_self]
        rfl
  | cons x hs ih =>
    obtain ⟨rfl, hd, hrest⟩ := hchain
    obtain ⟨-, hnext, hlt⟩ := hd.place_lt hmapped
    cases fuel with
    | zero => rfl
    | succ fuel =>
      rw [BootModule.walkHeaders, if_neg (Nat.not_le.mpr hlt), if_neg hd.named,
        if_neg (by simp [hd.magic])]
      dsimp only
      rw [hd.next_eq hmapped, ih hrest hnext, List.length_cons]
      by_cases hfuel : hs.length < fuel
      · rw [if_pos hfuel, if_pos (Nat.succ_lt_succ hfuel)]
        rfl
      · rw [if_neg hfuel, if_neg (by omega)]
        rfl

/-- The search comes to the first magic. -/
theorem firstHeader_eq {k : Nat} (hmapped : m.tarEnd + 8192 ≤ 0x40000000)
    (hstart : m.tarStart < m.tarEnd) (hk : k < 16)
    (hend : m.block k < BootModule.physToVirt m.tarEnd) (hmagic : m.magicAt (m.block k) = true)
    (hbefore : ∀ j < k, m.magicAt (m.block j) = false) : m.firstHeader = m.block k := by
  have hvirt : ∀ a, a ≤ m.tarEnd + 8191 → BootModule.physToVirt a = a + 0xC0000000 :=
    fun a ha => Nat.mod_eq_of_lt (by unfold kernelSpaceStart; omega)
  have hblock : ∀ j, m.block j = m.tarStart + 0xC0000000 + 512 * j := by
    intro j
    rw [BootModule.block, hvirt m.tarStart (by omega)]
  have hsearch : ∀ fuel j, j ≤ k → k < fuel + j → m.searchHeader fuel (m.block j) = m.block k := by
    intro fuel
    induction fuel with
    | zero =>
      intro j hj hlt
      omega
    | succ fuel ih =>
      intro j hj hlt
      rw [hvirt m.tarEnd (by omega), hblock] at hend
      have hgo : m.block j < BootModule.physToVirt (m.tarStart + 8192) ∧
          m.block j < BootModule.physToVirt m.tarEnd := by
        rw [hvirt (m.tarStart + 8192) (by omega), hvirt m.tarEnd (by omega), hblock]
        omega
      rw [BootModule.searchHeader, if_pos hgo]
      rcases Nat.eq_or_lt_of_le hj with rfl | hj
      · rw [if_pos hmagic]
      · have hnext : wrap32 (m.block j + 512) = m.block (j + 1) := by
          rw [hblock, hblock, wrap32]
          omega
        rw [if_neg (by simp [hbefore j hj]), hnext]
        exact ih (j + 1) hj (by omega)
  have hzero : m.block 0 = BootModule.physToVirt m.tarStart := Nat.add_zero _
  have hresult := hsearch 17 0 (Nat.zero_le k) (by omega)
  rwa [hzero] at hresult

/-- The entries of an archive, in the order of its headers. -/
theorem readArchive_eq (harchive : m.Archive hs) (hne : hs ≠ []) :
    m.readArchive fuel = if hs.length < fuel then some (hs.map m.entryAt) else none := by
  obtain ⟨k, hk, hchain, hbefore⟩ := harchive.start
  have hstart := harchive.bounds
  obtain ⟨x, rest, rfl⟩ := List.exists_cons_of_ne_nil hne
  obtain ⟨rfl, hd, -⟩ := id hchain
  have hlt := (hd.place_lt harchive.mapped).2.2
  have hfirst : m.searchHeader 17 (BootModule.physToVirt m.tarStart) = m.block k :=
    firstHeader_eq harchive.mapped hstart.2 hk hlt hd.magic hbefore
  rw [BootModule.readArchive, if_neg (by omega)]
  dsimp only
  rw [hfirst, if_pos hd.magic]
  refine walkHeaders_eq harchive.mapped hchain (hlt.trans ?_)
  exact wrap32_lt _

/-- The headers of an archive follow each other in memory. -/
theorem chain_sorted (hchain : m.Chain h hs) :
    (∀ x ∈ hs, h ≤ x ∧ m.Header x) ∧ hs.Pairwise (· < ·) := by
  induction hs generalizing h with
  | nil => simp
  | cons x hs ih =>
    obtain ⟨rfl, hd, hrest⟩ := hchain
    obtain ⟨hmem, hsorted⟩ := ih hrest
    have hnext : x < m.nextEntry x := by
      unfold BootModule.nextEntry
      omega
    constructor
    · intro y hy
      rcases List.mem_cons.mp hy with rfl | hy
      · exact ⟨le_rfl, hd⟩
      · exact ⟨hnext.le.trans (hmem y hy).1, (hmem y hy).2⟩
    · exact List.pairwise_cons.mpr ⟨fun y hy => hnext.trans_le (hmem y hy).1, hsorted⟩

namespace BootModule.Archive

variable (harchive : m.Archive hs)

include harchive

theorem header (hh : h ∈ hs) : m.Header h := by
  obtain ⟨k, -, hchain, -⟩ := harchive.start
  exact ((chain_sorted hchain).1 h hh).2

theorem kernel_le (hh : h ∈ hs) : 0xC0000000 ≤ h := by
  obtain ⟨k, -, hchain, -⟩ := harchive.start
  have hle := ((chain_sorted hchain).1 h hh).1
  have hstart := harchive.bounds
  have hmapped := harchive.mapped
  have hvirt : BootModule.physToVirt m.tarStart = m.tarStart + 0xC0000000 :=
    Nat.mod_eq_of_lt (by unfold kernelSpaceStart; omega)
  unfold BootModule.block at hle
  omega

theorem sorted : hs.Pairwise (· < ·) := by
  obtain ⟨k, -, hchain, -⟩ := harchive.start
  exact (chain_sorted hchain).2

theorem made_eq (hh : h ∈ hs) (hreg : m.IsRegular h) (hname : (m.nameField h).length < 100)
    (hpre : (m.prefixField h).length < 155 ∨ (m.prefixField h).getLast? = some slash) :
    (m.entryAt h).IsFile ∧ (m.entryAt h).made = m.names h := by
  have hd := harchive.header hh
  have hlt := (hd.place_lt harchive.mapped).1
  exact made_eq_names (by omega) hd.named hreg (hd.regular hreg) hname hpre

end BootModule.Archive

theorem length_le_of_mem_components {path x : List Nat} (hx : x ∈ components slash path) :
    x.length ≤ path.length := by
  have hflat := (List.sublist_flatten_of_mem hx).length_le
  rw [components_flatten] at hflat
  exact hflat.trans (List.length_filter_le ..)

/-- No name of an entry is too long for `vfs_findnode`. -/
theorem names_short (m : BootModule) (h : Nat) : ∀ x ∈ m.names h, x.length ≤ 255 := by
  have hname := nameField_length_le m h
  have hpre := prefixField_length_le m h
  have hnames : ∀ {x p}, x ∈ prefixNames p → x.length ≤ p.length := by
    intro x p hx
    unfold prefixNames at hx
    split_ifs at hx
    · cases hx
    · exact (length_le_of_mem_components hx).trans (dropDot_length_le p)
  intro x hx
  rw [names_eq, joinNames] at hx
  split_ifs at hx
  · have hle := (length_le_of_mem_components hx).trans (dropDot_length_le _)
    omega
  · rcases List.mem_append.mp hx with hx | hx
    · have hle := hnames hx
      omega
    · have hle := length_le_of_mem_components hx
      omega

/-- Reading a file of the archive. -/
theorem vfsRead_eq {n : TreeNode} {offset size : Nat} (hd : m.Header h)
    (hmapped : m.tarEnd + 8192 ≤ 0x40000000) (hlow : 0xC0000000 ≤ h)
    (hdata : n.data = some (h + 512)) (hsize : n.size = m.sizeField h)
    (hsum : offset + size < 4294967296) :
    m.vfsRead n offset size = (((((m.contents h).drop offset).take size).length : Int),
      ((m.contents h).drop offset).take size) := by
  have hlt := (hd.place_lt hmapped).1
  have hsmall : m.sizeField h < 2147483648 := by
    have hinside := hd.inside
    have hend : BootModule.physToVirt m.tarEnd = m.tarEnd + 0xC0000000 :=
      Nat.mod_eq_of_lt (by unfold kernelSpaceStart; omega)
    unfold BootModule.nextEntry at hinside
    omega
  have hlen : (m.contents h).length = m.sizeField h := by
    simp [BootModule.contents]
  unfold BootModule.vfsRead initrdRead
  rw [hdata, hsize]
  dsimp only [Option.map_some]
  by_cases hpast : m.sizeField h ≤ offset
  · rw [if_pos hpast, List.drop_eq_nil_of_le (hlen.le.trans hpast), List.take_nil]
    rfl
  · have hread : (if m.sizeField h < wrap32 (offset + size) then m.sizeField h - offset else size) =
        min size (m.sizeField h - offset) := by
      rw [wrap32, Nat.mod_eq_of_lt hsum]
      split_ifs <;> omega
    have hslice : (List.range (min size (m.sizeField h - offset))).map
        (fun i => BitVec.ofNat 8 (m.mem (wrap32 (h + 512 + (offset + i))))) =
          ((m.contents h).drop offset).take size := by
      apply List.ext_getElem
      · simp [hlen]
      · intro i hi hi'
        have hplace : wrap32 (h + 512 + (offset + i)) = h + 512 + (offset + i) := by
          rw [List.length_map, List.length_range] at hi
          exact Nat.mod_eq_of_lt (by omega)
        simp [BootModule.contents, hplace]
    rw [if_neg hpast, hread, hslice, List.length_take, List.length_drop, hlen, int32,
      if_pos (by omega)]

/-- A file is exposed when its names lead to a file with its size and its contents. -/
theorem exposed_iff {t : VfsTree} : m.Exposed t h ↔ ∃ i n, t.descend 0 (m.names h) = some i ∧
    t[i]? = some n ∧ n.IsFile ∧ n.size = m.sizeField h ∧
      ∀ offset size, offset + size < 4294967296 →
        m.vfsRead n offset size = (((((m.contents h).drop offset).take size).length : Int),
          ((m.contents h).drop offset).take size) := by
  unfold BootModule.Exposed
  rw [findnode_eq (names_short m h)]
  rfl

/-- The first header that makes a path. -/
theorem madeFirst_map {names : List (List Nat)} {e : TarEntry}
    (hfirst : MadeFirst (hs.map m.entryAt) names e) :
    ∃ before x after, hs = before ++ x :: after ∧ m.entryAt x = e ∧
      ∀ y ∈ before, ¬(m.entryAt y).Makes names := by
  obtain ⟨before, after, heq, -, hnone⟩ := hfirst
  obtain ⟨hb, hrest, rfl, rfl, hcons⟩ := List.map_eq_append_iff.mp heq
  obtain ⟨x, ha, rfl, hx, -⟩ := List.map_eq_cons_iff.mp hcons
  exact ⟨hb, x, ha, rfl, hx, fun y hy => hnone _ (List.mem_map_of_mem hy)⟩

/-- Every file is exposed when no field is copied short and nothing takes its path. -/
theorem exposed_of_exposable (harchive : m.Archive hs) (hexp : m.Exposable hs) (hh : h ∈ hs)
    (hreg : m.IsRegular h) : m.Exposed (mountAll (hs.map m.entryAt)) h := by
  have hnames : ∀ x ∈ hs, m.IsRegular x → (m.entryAt x).IsFile ∧ (m.entryAt x).made = m.names x :=
    fun x hx hxreg => harchive.made_eq hx hxreg (hexp.name x hx hxreg) (hexp.pre x hx hxreg)
  obtain ⟨he, hmade⟩ := hnames h hh hreg
  obtain ⟨hdev, hconsole⟩ := hexp.free h hh hreg
  have hfirst : MadeFirst (hs.map m.entryAt) (m.entryAt h).made (m.entryAt h) := by
    obtain ⟨before, after, hsplit⟩ := List.append_of_mem hh
    refine ⟨before.map m.entryAt, after.map m.entryAt, by simp [hsplit], List.prefix_rfl, ?_⟩
    intro e hmem hmakes
    obtain ⟨x, hx, rfl⟩ := List.mem_map.mp hmem
    have hsorted := harchive.sorted
    rw [hsplit, List.pairwise_append] at hsorted
    have hlt : x < h := hsorted.2.2 x hx h List.mem_cons_self
    rw [hmade] at hmakes
    exact hexp.first h hh hreg x (by simp [hsplit, hx]) hlt hmakes
  have hdirs : ∀ e ∈ hs.map m.entryAt, e.IsFile → e.made <+: (m.entryAt h).made →
      e.made = (m.entryAt h).made := by
    intro e hmem hfile hle
    obtain ⟨x, hx, rfl⟩ := List.mem_map.mp hmem
    have hsame : h = x := by
      by_contra hne
      rw [hmade, (hnames x hx hfile.2).2] at hle
      exact harchive.fresh x hx hfile.2 h hh hne hle
    rw [hsame]
  have hd := harchive.header hh
  rw [← hmade] at hdev hconsole
  obtain ⟨i, n, hi, hn, hisFile, hsize, hdata⟩ :=
    (MountedBy.mountAll (hs.map m.entryAt)).found he hfirst hdev hconsole hdirs
  rw [hd.size_eq harchive.mapped] at hsize
  rw [hd.data_eq harchive.mapped] at hdata
  refine exposed_iff.mpr ⟨i, n, hmade ▸ hi, hn, hisFile, hsize, fun offset size hsum => ?_⟩
  exact vfsRead_eq hd harchive.mapped (harchive.kernel_le hh) hdata hsize hsum

/-- When every file is exposed, no field is copied short and nothing takes their paths. -/
theorem exposable_of_exposed (harchive : m.Archive hs)
    (hexp : ∀ h ∈ hs, m.IsRegular h → m.Exposed (mountAll (hs.map m.entryAt)) h) :
    m.Exposable hs := by
  have hmounted := MountedBy.mountAll (hs.map m.entryAt)
  -- The file that is found for a header is the one of the first header that makes its path.
  have hfound : ∀ h ∈ hs, m.IsRegular h → ∃ before x after, hs = before ++ x :: after ∧
      m.names h = (m.entryAt x).made ∧ (m.entryAt x).IsFile ∧
      ∀ y ∈ before, ¬(m.entryAt y).Makes (m.names h) := by
    intro h hh hreg
    obtain ⟨i, n, hi, hn, hfile, -⟩ := exposed_iff.mp (hexp h hh hreg)
    obtain ⟨e, hfirst, he, hmade⟩ := hmounted.file_first (descend_eq_some.mp hi).1 hn hfile
    obtain ⟨before, x, after, hsplit, rfl, hnone⟩ := madeFirst_map hfirst
    exact ⟨before, x, after, hsplit, hmade, he, hnone⟩
  have huncut : ∀ h ∈ hs, m.IsRegular h → (m.nameField h).length < 100 ∧
      ((m.prefixField h).length < 155 ∨ (m.prefixField h).getLast? = some slash) := by
    classical
    by_contra hsome
    push Not at hsome
    obtain ⟨b, hb, hbreg, hbcut⟩ := hsome
    -- Among the files with a field copied short, one with the longest path.
    let Short : Nat → Prop := fun x => m.IsRegular x ∧ ¬((m.nameField x).length < 100 ∧
      ((m.prefixField x).length < 155 ∨ (m.prefixField x).getLast? = some slash))
    have hne : (hs.toFinset.filter Short).Nonempty := by
      refine ⟨b, Finset.mem_filter.mpr ⟨List.mem_toFinset.mpr hb, hbreg, fun hok => ?_⟩⟩
      obtain ⟨hfull, hlast⟩ := hbcut hok.1
      rcases hok.2 with hlt | hslash
      · omega
      · exact hlast hslash
    obtain ⟨h, hmem, hmax⟩ := Finset.exists_max_image _ (fun x => weight (m.names x)) hne
    obtain ⟨hh, hreg, hshort⟩ := Finset.mem_filter.mp hmem
    obtain ⟨before, x, after, hsplit, hmade, he, -⟩ := hfound h (List.mem_toFinset.mp hh) hreg
    have hx : x ∈ hs := by simp [hsplit]
    by_cases hxfull : (m.nameField x).length < 100 ∧
        ((m.prefixField x).length < 155 ∨ (m.prefixField x).getLast? = some slash)
    · rw [(harchive.made_eq hx he.2 hxfull.1 hxfull.2).2] at hmade
      have hsame : x ≠ h := by
        rintro rfl
        exact hshort hxfull
      exact harchive.fresh h (List.mem_toFinset.mp hh) hreg x hx hsame (hmade ▸ List.prefix_rfl)
    · have hlt := weight_joinNames_take (prefixField_length_le m x) (nameField_length_le m x)
        ((harchive.header hx).regular he.2) hxfull
      rw [← weight_made he, ← hmade, ← names_eq] at hlt
      have hle := hmax x (Finset.mem_filter.mpr ⟨List.mem_toFinset.mpr hx, he.2, hxfull⟩)
      exact absurd hle (Nat.not_le.mpr hlt)
  have hown : ∀ h ∈ hs, m.IsRegular h → ∃ before after, hs = before ++ h :: after ∧
      ∀ y ∈ before, ¬(m.entryAt y).Makes (m.names h) := by
    intro h hh hreg
    obtain ⟨before, x, after, hsplit, hmade, he, hnone⟩ := hfound h hh hreg
    have hx : x ∈ hs := by simp [hsplit]
    obtain ⟨hname, hpre⟩ := huncut x hx he.2
    rw [(harchive.made_eq hx he.2 hname hpre).2] at hmade
    have hsame : x = h := by
      by_contra hne
      exact harchive.fresh h hh hreg x hx hne (hmade ▸ List.prefix_rfl)
    exact ⟨before, after, hsame ▸ hsplit, hnone⟩
  refine ⟨fun h hh hreg => (huncut h hh hreg).1, fun h hh hreg => (huncut h hh hreg).2,
    fun h hh hreg x hx hlt => ?_, fun h hh hreg => ?_⟩
  · obtain ⟨before, after, hsplit, hnone⟩ := hown h hh hreg
    have hsorted := harchive.sorted
    rw [hsplit, List.pairwise_append, List.pairwise_cons] at hsorted
    rw [hsplit, List.mem_append, List.mem_cons] at hx
    rcases hx with hx | rfl | hx
    · exact hnone x hx
    · exact absurd hlt (Nat.lt_irrefl x)
    · exact absurd hlt (Nat.lt_asymm (hsorted.2.1.1 x hx))
  · obtain ⟨i, n, hi, hn, hfile, -⟩ := exposed_iff.mp (hexp h hh hreg)
    exact hmounted.file_not_dev hi hn hfile

/-- All regular files of an archive are exposed exactly when none of their fields is copied short,
and neither an entry in front of a file nor the device directory takes its path. -/
theorem initrd_exposes_iff (harchive : m.Archive hs) : m.Exposes hs ↔ m.Exposable hs := by
  rcases List.eq_nil_or_concat hs with rfl | ⟨init, last, hlast⟩
  · exact iff_of_true ⟨fun hne => absurd rfl hne, by simp⟩ ⟨by simp, by simp, by simp, by simp⟩
  · have hne : hs ≠ [] := by simp [hlast]
    have hinit : ∀ fuel, m.initrdInit fuel =
        if hs.length < fuel then some (mountAll (hs.map m.entryAt)) else none := by
      intro fuel
      rw [BootModule.initrdInit, readArchive_eq harchive hne]
      split_ifs <;> rfl
    have hends : m.initrdInit (hs.length + 1) = some (mountAll (hs.map m.entryAt)) := by
      rw [hinit, if_pos (Nat.lt_succ_self _)]
    constructor
    · intro hexposes
      exact exposable_of_exposed harchive (hexposes.2 _ _ hends)
    · intro hexp
      refine ⟨fun _ => ⟨_, _, hends⟩, fun fuel t ht h hh hreg => ?_⟩
      rw [hinit] at ht
      split_ifs at ht
      rw [← Option.some.inj ht]
      exact exposed_of_exposable harchive hexp hh hreg

/-- An archive with one file, whose name is the letter `a` a number of times and whose contents
are the letters `hi`. -/
def longNameModule (count : Nat) : BootModule where
  tarStart := 0x400000
  tarEnd := 0x400600
  mem a :=
    if 0xC0400000 ≤ a ∧ a < 0xC0400000 + count then 97
    else if 0xC040007C ≤ a ∧ a < 0xC0400086 then 48
    else if a = 0xC0400086 then 50
    else if a = 0xC040009C then 48
    else if 0xC0400101 ≤ a ∧ a < 0xC0400106 then
      [117, 115, 116, 97, 114].getD (a - 0xC0400101) 0
    else if a = 0xC0400200 then 104
    else if a = 0xC0400201 then 105
    else 0

theorem longNameModule_archive {count : Nat} (hheader : (longNameModule count).Header 0xC0400000)
    (hnext : (longNameModule count).nextEntry 0xC0400000 = 0xC0400400)
    (hzero : ∀ i < 512, (longNameModule count).mem (wrap32 (0xC0400400 + i)) = 0) :
    (longNameModule count).Archive [0xC0400000] := by
  have hblock : (longNameModule count).block 0 = 0xC0400000 := by
    have hstart : BootModule.physToVirt 0x400000 + 512 * 0 = 0xC0400000 := by decide
    exact hstart
  have hchain : (longNameModule count).Chain ((longNameModule count).block 0) [0xC0400000] := by
    rw [hblock]
    exact ⟨rfl, hheader, by rw [hnext]; exact Or.inr hzero⟩
  refine ⟨⟨?_, ?_⟩, ?_, ⟨0, by decide, hchain, by simp⟩, ?_⟩
  · simp [longNameModule]
  · simp [longNameModule]
  · simp [longNameModule]
  · intro h hh _ h' hh' hne
    rw [List.mem_singleton] at hh hh'
    exact absurd (hh'.trans hh.symm) hne

/-- A name of 99 bytes is found, and the contents are read. -/
theorem long_name_exposed : (longNameModule 99).Exposes [0xC0400000] := by
  have harchive : (longNameModule 99).Archive [0xC0400000] := by
    apply longNameModule_archive
    · exact ⟨by decide +kernel, by decide +kernel, by decide +kernel, by decide +kernel,
        by decide +kernel, fun _ => by decide +kernel⟩
    · decide +kernel
    · decide +kernel
  refine (initrd_exposes_iff harchive).mpr ⟨?_, ?_, ?_, ?_⟩
  · decide +kernel
  · decide +kernel
  · simp
  · decide +kernel

theorem longName_archive : (longNameModule 100).Archive [0xC0400000] := by
  apply longNameModule_archive
  · exact ⟨by decide +kernel, by decide +kernel, by decide +kernel, by decide +kernel,
      by decide +kernel, fun _ => by decide +kernel⟩
  · decide +kernel
  · decide +kernel

/-- A name of 100 bytes is mounted without its last letter. -/
theorem full_name_hidden : ¬∀ (m : BootModule) (hs : List Nat), m.Archive hs → m.Exposes hs := by
  intro hall
  have hexposes := (hall (longNameModule 100) [0xC0400000] longName_archive).2
  have hinit : (longNameModule 100).initrdInit 2 =
      some (mountAll ([0xC0400000].map (longNameModule 100).entryAt)) := by
    rw [BootModule.initrdInit, readArchive_eq longName_archive (by simp), if_pos (by simp)]
    rfl
  have hname := (exposable_of_exposed longName_archive (hexposes 2 _ hinit)).name 0xC0400000
    (by simp) (by decide +kernel)
  have hfull : ((longNameModule 100).nameField 0xC0400000).length = 100 := by decide +kernel
  omega

end Archive

end EnclaveOS
