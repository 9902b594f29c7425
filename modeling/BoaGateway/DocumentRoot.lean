import BoaGateway.TranslateUri

/-!
# Inside the document root

`clean_pathname` drops every empty segment, every dot and every pair of dots but a last
one, so only two dots at the end of a path without names can lead out. Percent-encodings
stay as they are in a URI without a carriage return.
-/

namespace DocumentRoot

open ByteBlocks Texts Paths Logline TranslateUri

/-- The URI that is compared is the path that is opened, decoded and cleaned, and it stays
inside the document root. -/
structure Confined (docroot : Bytes) (t : Translated) : Prop where
  opened : t.pathname = docroot ++ t.requestUri
  decoded : percentDecode t.requestUri = t.requestUri
  cleaned : cleanPathname t.requestUri = t.requestUri
  inside : staysInside (percentDecode t.requestUri) = true

/-- Behind segments that are empty or dots come two dots, and the path ends. -/
def EndsAbove (path : Bytes) : Prop :=
  ∃ ts, path.splitOn slash = [] :: ts ++ [ascii ".."] ∧ ∀ t ∈ ts, isDots t = true

/-- No percent-encoding stands in the path of the URI, where those behind a carriage return
count as their characters, and the path does not end above its start. -/
def Harmless (uri : Bytes) : Prop :=
  ∀ v, unescapeUri (requestPath uri) = some v →
    hasEncoding (pathPart v) = false ∧ ¬ EndsAbove (pathPart v)

theorem skipRound_segment {t : Bytes} (ht : slash ∉ t) (r : Bytes) :
    skipRound (t ++ slash :: r) = if isDots t then some r else none := by
  have hdot : ascii "." = [46] := rfl
  have hdots : ascii ".." = [46, 46] := rfl
  have hdotSlash : ascii "./" = [46, slash] := rfl
  have hdotsSlash : ascii "../" = [46, 46, slash] := rfl
  have hne : (46 : UInt8) ≠ slash := by decide
  rw [skipRound, isDots, hdot, hdots, hdotSlash, hdotsSlash]
  rcases t with _ | ⟨x, _ | ⟨y, _ | ⟨z, s⟩⟩⟩
  · simp
  · simp only [List.mem_singleton] at ht
    by_cases hx : x = 46
    · simp [hx, hne.symm]
    · simp [hx, ht, Ne.symm hx]
  · simp only [List.mem_cons, List.not_mem_nil, or_false, not_or] at ht
    by_cases hx : x = 46
    · by_cases hy : y = 46
      · simp [hx, hy, hne.symm]
      · simp [hx, hy, ht.2, hne.symm, Ne.symm hy]
    · simp [hx, ht.1, Ne.symm hx]
  · simp only [List.mem_cons, not_or] at ht
    simp [ht.1, ht.2.1, ht.2.2.1]

theorem skipRound_last {t : Bytes} (ht : slash ∉ t) : skipRound t = none := by
  have hnot : ∀ q : Bytes, slash ∈ q → q.isPrefixOf t = false := by
    intro q hq
    rw [Bool.eq_false_iff]
    intro hpre
    exact ht ((List.isPrefixOf_iff_prefix.mp hpre).subset hq)
  rw [skipRound, hnot _ (by decide), hnot _ (by decide), hnot _ (by decide)]
  rfl

theorem skipDots_last {t : Bytes} (ht : slash ∉ t) : skipDots t = t := by
  rw [skipDots]
  split
  · rename_i hround
    rw [skipRound_last ht] at hround
    cases hround
  · rfl

theorem skipDots_segment {t : Bytes} (ht : slash ∉ t) (r : Bytes) :
    skipDots (t ++ slash :: r) = if isDots t then skipDots r else t ++ slash :: r := by
  rw [skipDots]
  split
  · rename_i hround
    rw [skipRound_segment ht] at hround
    split at hround
    · rename_i hdots
      cases hround
      rw [if_pos hdots]
    · cases hround
  · rename_i hround
    rw [skipRound_segment ht] at hround
    split at hround
    · cases hround
    · rename_i hdots
      rw [if_neg hdots]

theorem cleanLoop_text {t : Bytes} (ht : slash ∉ t) (hq : questionMark ∉ t) (r : Bytes) :
    cleanLoop false (t ++ r) = t ++ cleanLoop false r := by
  induction t with
  | nil => rfl
  | cons c t ih =>
    have hslash : c ≠ slash := fun hc => ht (hc ▸ List.mem_cons_self)
    have hquestion : (c == questionMark) = false :=
      beq_eq_false_iff_ne.mpr fun hc => hq (hc ▸ List.mem_cons_self)
    rw [List.cons_append, cleanLoop, if_neg fun h => hslash h.1, hquestion, Bool.or_false,
      ih (fun h => ht (List.mem_cons_of_mem _ h)) fun h => hq (List.mem_cons_of_mem _ h)]
    rfl

/-- What is left of the segments behind a slash. -/
theorem cleanLoop_segments {ts : List Bytes} (hne : ts ≠ [])
    (hslash : ∀ t ∈ ts, slash ∉ t) (hquestion : ∀ t ∈ ts, questionMark ∉ t) :
    cleanLoop false (skipDots (joinSlash ts)) = joinSlash (keepNames ts) := by
  induction ts with
  | nil => exact absurd rfl hne
  | cons t ts ih =>
    have ht := hslash t List.mem_cons_self
    have hq := hquestion t List.mem_cons_self
    by_cases hts : ts = []
    · subst hts
      have hjoin : joinSlash [t] = t := List.intercalate_singleton
      have hloop := cleanLoop_text ht hq []
      rw [List.append_nil, cleanLoop, List.append_nil] at hloop
      rw [hjoin, skipDots_last ht, hloop]
      exact hjoin.symm
    · have ih := ih hts (fun u hu => hslash u (List.mem_cons_of_mem _ hu))
        fun u hu => hquestion u (List.mem_cons_of_mem _ hu)
      rw [joinSlash_cons t hts, skipDots_segment ht, keepNames_cons hts]
      split
      · exact ih
      · rw [cleanLoop_text ht hq, cleanLoop, if_pos ⟨rfl, rfl⟩, ih,
          joinSlash_cons t (keepNames_ne_nil hts)]

theorem isPrefixOf_append_cons {c : UInt8} {w : Bytes} (hw : c ∉ w) (s r : Bytes) :
    w.isPrefixOf (s ++ c :: r) = w.isPrefixOf s := by
  induction w generalizing s with
  | nil => rfl
  | cons x w ih =>
    cases s with
    | nil =>
      have hx : (x == c) = false :=
        beq_eq_false_iff_ne.mpr fun hxc => hw (hxc ▸ List.mem_cons_self)
      rw [List.nil_append, List.isPrefixOf_cons_cons, hx]
      rfl
    | cons y s =>
      rw [List.cons_append, List.isPrefixOf_cons_cons, List.isPrefixOf_cons_cons,
        ih fun h => hw (List.mem_cons_of_mem _ h)]

theorem skipRound_query (s r : Bytes) :
    skipRound (s ++ questionMark :: r) = (skipRound s).map (· ++ questionMark :: r) := by
  have hdrop : ∀ (w : Bytes) (n : Nat), n = w.length → w.isPrefixOf s = true →
      (s ++ questionMark :: r).drop n = s.drop n ++ questionMark :: r := by
    rintro w n rfl hpre
    exact List.drop_append_of_le_length (List.isPrefixOf_iff_prefix.mp hpre).length_le
  rw [skipRound, isPrefixOf_append_cons (by decide), isPrefixOf_append_cons (by decide),
    isPrefixOf_append_cons (by decide), skipRound]
  split
  · rename_i hpre
    rw [hdrop _ 1 rfl hpre]
    rfl
  split
  · rename_i hpre
    rw [hdrop _ 2 rfl hpre]
    rfl
  split
  · rename_i hpre
    rw [hdrop _ 3 rfl hpre]
    rfl
  · rfl

theorem skipDots_query (s r : Bytes) :
    skipDots (s ++ questionMark :: r) = skipDots s ++ questionMark :: r := by
  fun_induction skipDots s with
  | case1 s t hround ih =>
    have hquery := skipRound_query s r
    rw [hround] at hquery
    rw [skipDots]
    split
    · rename_i u hu
      cases hu.symm.trans hquery
      exact ih
    · rename_i hnone
      cases hnone.symm.trans hquery
  | case2 s hround =>
    have hquery := skipRound_query s r
    rw [hround] at hquery
    rw [skipDots]
    split
    · rename_i u hu
      cases hu.symm.trans hquery
    · rfl

/-- Nothing changes behind the question mark. -/
theorem cleanLoop_cgiarg (s : Bytes) : cleanLoop true s = s := by
  induction s with
  | nil => rw [cleanLoop]
  | cons c s ih => rw [cleanLoop, if_neg (by simp), Bool.true_or, ih]

theorem skipDots_subset (s : Bytes) : skipDots s ⊆ s := by
  fun_induction skipDots s with
  | case1 s t hround ih =>
    have hsub : t ⊆ s := by
      unfold skipRound at hround
      split at hround
      · cases hround
        exact List.drop_subset 1 s
      split at hround
      · cases hround
        exact List.drop_subset 2 s
      split at hround
      · cases hround
        exact List.drop_subset 3 s
      · cases hround
    exact List.Subset.trans ih hsub
  | case2 s hround => exact List.Subset.refl s

theorem cleanLoop_query {cgiarg : Bool} {s : Bytes} (hs : questionMark ∉ s) (r : Bytes) :
    cleanLoop cgiarg (s ++ questionMark :: r) = cleanLoop cgiarg s ++ questionMark :: r := by
  fun_induction cleanLoop cgiarg s with
  | case1 cgiarg =>
    rw [List.nil_append, cleanLoop, if_neg fun h => absurd h.1 (by decide), beq_self_eq_true,
      Bool.or_true, cleanLoop_cgiarg]
  | case2 cgiarg c s hc ih =>
    have hskip : questionMark ∉ skipDots s :=
      fun h => hs (List.mem_cons_of_mem _ (skipDots_subset s h))
    rw [List.cons_append, cleanLoop, if_pos hc, skipDots_query, ih hskip]
    rfl
  | case3 cgiarg c s hc ih =>
    rw [List.cons_append, cleanLoop, if_neg hc, ih fun h => hs (List.mem_cons_of_mem _ h)]
    rfl

theorem cleanLoop_subset (cgiarg : Bool) (s : Bytes) : cleanLoop cgiarg s ⊆ s := by
  fun_induction cleanLoop cgiarg s with
  | case1 cgiarg => exact List.Subset.refl []
  | case2 cgiarg c s hc ih =>
    refine List.cons_subset.mpr ⟨hc.1 ▸ List.mem_cons_self, ?_⟩
    exact List.Subset.trans (List.Subset.trans ih (skipDots_subset s)) (List.subset_cons_self c s)
  | case3 cgiarg c s hc ih =>
    exact List.cons_subset_cons c ih

/-- Cutting the query string off and cleaning can be swapped. -/
theorem pathPart_cleanPathname (v : Bytes) :
    pathPart (cleanPathname v) = cleanPathname (pathPart v) := by
  have hpath : questionMark ∉ pathPart v := by
    intro h
    have hc := List.mem_takeWhile_imp h
    simp at hc
  have hclean : questionMark ∉ cleanPathname (pathPart v) :=
    fun h => hpath (cleanLoop_subset _ _ h)
  have htake : ∀ s : Bytes, questionMark ∉ s → ∀ c ∈ s, (c != questionMark) = true := by
    intro s hs c hc
    exact bne_iff_ne.mpr fun h => hs (h ▸ hc)
  have hv : v = pathPart v ++ v.dropWhile fun c => c != questionMark :=
    List.takeWhile_append_dropWhile.symm
  cases hrest : v.dropWhile fun c => c != questionMark with
  | nil =>
    rw [hrest, List.append_nil] at hv
    rw [← hv] at hclean ⊢
    exact List.takeWhile_eq_self_iff.mpr (htake _ hclean)
  | cons c r =>
    have hc : c = questionMark := by
      have hhead := List.head?_dropWhile_not (fun c => c != questionMark) v
      rw [hrest] at hhead
      simpa using hhead
    subst hc
    have hcut : cleanPathname v = cleanPathname (pathPart v) ++ questionMark :: r := by
      rw [hrest] at hv
      exact (congrArg cleanPathname hv).trans (cleanLoop_query hpath r)
    rw [hcut, pathPart, List.takeWhile_append_of_pos (htake _ hclean),
      List.takeWhile_cons_of_neg (by simp), List.append_nil]

/-- A cleaned path has the names and the last segment of the path. -/
theorem cleanPathname_path {rest : Bytes} (hq : questionMark ∉ rest) :
    cleanPathname (slash :: rest) = slash :: joinSlash (keepNames (rest.splitOn slash)) := by
  have hloop := cleanLoop_segments (List.splitOn_ne_nil slash rest)
    (fun t ht => (mem_splitOn ht).1) fun t ht hmem => hq ((mem_splitOn ht).2 hmem)
  rw [joinSlash_splitOn] at hloop
  rw [cleanPathname, cleanLoop, if_pos ⟨rfl, rfl⟩, hloop]

theorem splitOn_keepNames (rest : Bytes) :
    (joinSlash (keepNames (rest.splitOn slash))).splitOn slash = keepNames (rest.splitOn slash) := by
  refine splitOn_joinSlash (fun t ht => ?_) (keepNames_ne_nil (List.splitOn_ne_nil slash rest))
  exact (mem_splitOn (keepNames_subset _ ht)).1

theorem splitOn_slash_cons (s : Bytes) : (slash :: s).splitOn slash = [] :: s.splitOn slash :=
  List.splitOn_append_cons_self_of_not_mem (a := slash) List.not_mem_nil s

/-- Cleaning drops no percent-encoding. -/
theorem hasEncoding_cleaned {rest : Bytes} (hq : questionMark ∉ rest) :
    hasEncoding (cleanPathname (slash :: rest)) = hasEncoding (slash :: rest) := by
  have hslash : ∀ s : Bytes, hasEncoding (slash :: s) = hasEncoding s := by
    intro s
    have happend := hasEncoding_append [] s
    rwa [hasEncoding_nil, Bool.false_or] at happend
  rw [cleanPathname_path hq, hslash, hslash, hasEncoding_joinSlash,
    any_keepNames hasEncoding_isDots, ← hasEncoding_joinSlash, joinSlash_splitOn]

theorem cleanPathname_idem {rest : Bytes} (hq : questionMark ∉ rest) :
    cleanPathname (cleanPathname (slash :: rest)) = cleanPathname (slash :: rest) := by
  have hsub : joinSlash (keepNames (rest.splitOn slash)) ⊆ slash :: rest := by
    have hclean := cleanLoop_subset false (slash :: rest)
    rw [← cleanPathname, cleanPathname_path hq] at hclean
    exact List.Subset.trans (List.subset_cons_self slash _) hclean
  have hq' : questionMark ∉ joinSlash (keepNames (rest.splitOn slash)) := by
    intro h
    rcases List.mem_cons.mp (hsub h) with heq | hmem
    · exact absurd heq (by decide)
    · exact hq hmem
  rw [cleanPathname_path hq, cleanPathname_path hq', splitOn_keepNames, keepNames_idem]

/-- A cleaned path leaves its start exactly when the path ends above it. -/
theorem staysInside_cleaned {rest : Bytes} (hq : questionMark ∉ rest) :
    staysInside (cleanPathname (slash :: rest)) = true ↔ ¬ EndsAbove (slash :: rest) := by
  have hroot : ∀ ts, walk [] ([] :: ts) = walk [] ts := fun ts => rfl
  rw [← not_iff_not, not_not, Bool.not_eq_true, cleanPathname_path hq, staysInside,
    splitOn_slash_cons, splitOn_keepNames, hroot, walk_keepNames, EndsAbove, splitOn_slash_cons]
  constructor
  · rintro ⟨us, hus, hdots⟩
    exact ⟨us, by rw [hus]; rfl, hdots⟩
  · rintro ⟨us, hus, hdots⟩
    exact ⟨us, (List.cons.inj hus).2, hdots⟩

theorem serveFile_eq {cfg : Config} {req : Request} {uri pathname : Bytes} {query : Option Bytes}
    {isNph : Bool} {t : Translated} (h : serveFile cfg req uri query isNph pathname = some t) :
    t.requestUri = uri ∧ t.pathname = pathname := by
  unfold serveFile at h
  split at h
  · cases h
    exact ⟨rfl, rfl⟩
  split at h
  · cases h
    exact ⟨rfl, rfl⟩
  split at h
  · cases h
  · cases h
    exact ⟨rfl, rfl⟩

theorem translateRoot_eq {cfg : Config} {req : Request} {uri docroot : Bytes}
    {query : Option Bytes} {isNph : Bool} {t : Translated}
    (h : translateRoot cfg req uri query isNph = some (.documentRoot docroot t)) :
    t.requestUri = uri ∧ t.pathname = docroot ++ uri := by
  obtain ⟨pathname, hbuffer, he⟩ := Option.map_eq_some_iff.mp h
  split at he
  · cases he
  · rename_i t' hserve
    cases he
    obtain ⟨huri, hpathname⟩ := serveFile_eq hserve
    unfold sprintfBuffer at hbuffer
    split at hbuffer
    · cases hbuffer
      exact ⟨huri, hpathname⟩
    · cases hbuffer

theorem translatePath_eq {cfg : Config} {req : Request} {uri docroot : Bytes}
    {query : Option Bytes} {isNph : Bool} {t : Translated}
    (h : translatePath cfg req uri query isNph = some (.documentRoot docroot t)) :
    t.requestUri = uri ∧ t.pathname = docroot ++ uri := by
  unfold translatePath at h
  split at h
  · split at h
    · cases h
    · obtain ⟨buffer, -, he⟩ := Option.map_eq_some_iff.mp h
      split at he
      · cases he
      · cases he
  · split at h
    · unfold translateUserDir at h
      dsimp only at h
      split at h
      · cases h
      split at h
      · cases h
      split at h
      · cases h
      · cases h
    · exact translateRoot_eq h

/-- What is served from the document root is the cleaned path of the URI. -/
theorem translateUri_eq {cfg : Config} {req : Request} {docroot : Bytes} {t : Translated}
    (h : translateUri cfg req = some (.documentRoot docroot t)) :
    ∃ v rest, unescapeUri (requestPath req.line.requestUri) = some v ∧
      pathPart v = slash :: rest ∧ t.requestUri = cleanPathname (slash :: rest) ∧
      t.pathname = docroot ++ t.requestUri := by
  unfold translateUri at h
  split at h
  · cases h
  split at h
  · cases h
  · rename_i v hv
    unfold translateCleaned at h
    split at h
    · rename_i hhead
      obtain ⟨huri, hpathname⟩ := translatePath_eq h
      rw [pathPart_cleanPathname] at huri hpathname
      cases v with
      | nil =>
        rw [cleanPathname, cleanLoop] at hhead
        cases hhead
      | cons c s =>
        have hc : c = slash := by
          rw [cleanPathname, cleanLoop] at hhead
          split at hhead
          · rename_i hcond
            exact hcond.1
          · exact Option.some.inj hhead
        subst hc
        have hpart : pathPart (slash :: s) = slash :: pathPart s :=
          List.takeWhile_cons_of_pos (by decide)
        refine ⟨slash :: s, pathPart s, hv, hpart, ?_, ?_⟩
        · rw [huri, hpart]
        · rw [hpathname, huri]
    · cases h

/-- A file of the document root is named by the decoded and cleaned path of the URI, and lies
inside, exactly when no percent-encoding stays in the path and it does not end above. -/
theorem documentRoot_confined_iff {cfg : Config} {req : Request} {docroot : Bytes}
    {t : Translated} (h : translateUri cfg req = some (.documentRoot docroot t)) :
    Confined docroot t ↔ Harmless req.line.requestUri := by
  obtain ⟨v, rest, hv, hpart, huri, hpathname⟩ := translateUri_eq h
  have hq : questionMark ∉ rest := by
    intro hmem
    have hc := List.mem_takeWhile_imp (hpart ▸ List.mem_cons_of_mem slash hmem)
    simp at hc
  have hencoding : hasEncoding t.requestUri = hasEncoding (pathPart v) := by
    rw [huri, hasEncoding_cleaned hq, hpart]
  have hinside : staysInside t.requestUri = true ↔ ¬ EndsAbove (pathPart v) := by
    rw [huri, staysInside_cleaned hq, hpart]
  constructor
  · intro hconfined v' hv'
    cases hv.symm.trans hv'
    have hdecoded := hconfined.decoded
    have hstays := hconfined.inside
    rw [hdecoded] at hstays
    rw [percentDecode_eq_self_iff, hencoding] at hdecoded
    exact ⟨hdecoded, hinside.mp hstays⟩
  · intro hharmless
    obtain ⟨hplain, habove⟩ := hharmless v hv
    have hdecoded : percentDecode t.requestUri = t.requestUri := by
      rw [percentDecode_eq_self_iff, hencoding, hplain]
    constructor
    · exact hpathname
    · exact hdecoded
    · rw [huri]
      exact cleanPathname_idem hq
    · rw [hdecoded]
      exact hinside.mpr habove

def sampleConfig : Config where
  aliasHashtable := fun _ => []
  userDir := none
  getHomeDir := fun _ => none
  virtualhost := false
  getVirtualHost := fun _ => none
  documentRoot := ascii "/home/httpd/web"
  getMimeType := fun _ => ascii "text/html"

def sampleRequest (uri : String) : Request where
  line := ⟨.get, ascii uri, ascii "HTTP/1.0", false⟩
  host := none
  localIpAddr := none

/-- A file that is served without a script. -/
def sampleFile (uri : String) : Translated where
  requestUri := ascii uri
  queryString := none
  pathname := ascii "/home/httpd/web" ++ ascii uri
  isCgi := none
  scriptName := none

theorem documentRoot_confined_iff_index :
    Confined (ascii "/home/httpd/web") (sampleFile "/index.html") ↔
      Harmless (sampleRequest "/index.html").line.requestUri := by
  have hserved : translateUri sampleConfig (sampleRequest "/index.html") =
      some (.documentRoot (ascii "/home/httpd/web") (sampleFile "/index.html")) := by
    change translateCleaned _ _ (cleanPathname (slash :: ascii "index.html")) = _
    rw [cleanPathname_path (by decide)]
    rfl
  exact documentRoot_confined_iff hserved

/-- Two dots at the end of a path lead to the directory above the document root. -/
theorem dots_lead_above :
    ¬ ∀ (cfg : Config) (line : Bytes) (pos : Nat) (l : Line) (host localIpAddr : Option Bytes)
      (docroot : Bytes) (t : Translated), processLogline line pos = .ok l →
      translateUri cfg ⟨l, host, localIpAddr⟩ = some (.documentRoot docroot t) →
      Confined docroot t := by
  intro hclaim
  have hserved : translateUri sampleConfig (sampleRequest "/..") =
      some (.documentRoot (ascii "/home/httpd/web") (sampleFile "/..")) := by
    change translateCleaned _ _ (cleanPathname (slash :: ascii "..")) = _
    rw [cleanPathname_path (by decide)]
    rfl
  have hconfined := hclaim sampleConfig (ascii "GET /.. HTTP/1.0") 20 _ none none _ _ rfl hserved
  exact absurd hconfined.inside (by decide)

end DocumentRoot
