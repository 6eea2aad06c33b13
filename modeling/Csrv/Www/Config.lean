import Csrv.CString
import Csrv.Lib.Base64
import Csrv.Lib.Json
import Mathlib.Data.List.Basic
import Mathlib.Logic.Function.Basic

/-!
# The address of the load client

`rps/index.js` keeps its configuration in the address: `cfg2url` pushes it as the parameter `rps`,
`url2cfg` reads it when the page loads. The base64 text goes into the address as it is, and a query
reads `+` as a space, which `atob` skips.

Strings are Latin-1. `JSON.stringify` and `JSON.parse` are any inverse pair; numbers stay abstract.

`survives_iff`: loading the pushed address restores the configuration if and only if its base64
text has no `+`, or the configuration is the one that a page starts with and what is left of the
text without `+` is no configuration.
-/

namespace Csrv.Www.Rps

/-- `JSON.stringify` and `JSON.parse`. -/
structure Json (α : Type) where
  stringify : α → Bytes
  parse : Bytes → Option α
  inverse : Function.IsPartialInv stringify parse

structure Config (ν : Type) where
  url : Bytes
  graphdatabufsz : ν
  logdatabufsz : ν
  graphupdateperiodms : ν
  running : Bool
deriving DecidableEq

/-- The keys of a configuration. -/
inductive Key
  | url | graphdatabufsz | logdatabufsz | graphupdateperiodms | running

namespace Config

variable {ν : Type}

/-- `Object.keys`. -/
def keys (_ : Config ν) : List Key :=
  [.url, .graphdatabufsz, .logdatabufsz, .graphupdateperiodms, .running]

/-- `config[cfgk]=urlconfig[cfgk]` -/
def assign (urlconfig config : Config ν) : Key → Config ν
  | .url => { config with url := urlconfig.url }
  | .graphdatabufsz => { config with graphdatabufsz := urlconfig.graphdatabufsz }
  | .logdatabufsz => { config with logdatabufsz := urlconfig.logdatabufsz }
  | .graphupdateperiodms => { config with graphupdateperiodms := urlconfig.graphupdateperiodms }
  | .running => { config with running := urlconfig.running }

end Config

/-! ## The address -/

/-- A path that begins with one slash. With a second one a URL would name another host. -/
def Rooted (path : Bytes) : Prop := path.head? = some 0x2f ∧ path.tail.head? ≠ some 0x2f

instance (path : Bytes) : Decidable (Rooted path) := inferInstanceAs (Decidable (_ ∧ _))

structure Location where
  origin : Bytes
  pathname : Bytes
  search : Bytes
  path : 0x3f ∉ pathname
  rooted : Rooted pathname

theorem not_mem_takeWhile_query (url : Bytes) : 0x3f ∉ url.takeWhile (· ≠ 0x3f) := fun h => by
  simpa using List.mem_takeWhile_imp h

/-- `history.pushState` with an absolute path. It throws where the URL may be of another origin. -/
def pushState (location : Location) (url : Bytes) : Option Location :=
  if h : Rooted (url.takeWhile (· ≠ 0x3f)) then
    some ⟨location.origin, url.takeWhile (· ≠ 0x3f), url.dropWhile (· ≠ 0x3f),
      not_mem_takeWhile_query url, h⟩
  else none

/-- Percent-decoding. -/
def percentDecode : Bytes → Bytes
  | 0x25 :: hi :: lo :: rest =>
    match Json.hexDigit hi, Json.hexDigit lo with
    | some i, some j => UInt8.ofNat (16 * i + j) :: percentDecode rest
    | _, _ => 0x25 :: percentDecode (hi :: lo :: rest)
  | c :: rest => c :: percentDecode rest
  | [] => []

def plusToSpace (s : Bytes) : Bytes := s.map fun c => if c = 0x2b then 0x20 else c

/-- The list of a `URLSearchParams`. The bytes stay undecoded from UTF-8. -/
def urlSearchParams (search : Bytes) : List (Bytes × Bytes) :=
  let query := if search.head? = some 0x3f then search.tail else search
  ((query.splitOn 0x26).filter (· ≠ [])).map fun param =>
    (percentDecode (plusToSpace (param.takeWhile (· ≠ 0x3d))),
      percentDecode (plusToSpace ((param.dropWhile (· ≠ 0x3d)).drop 1)))

/-! ## The configuration in the address -/

section Address

variable {ν : Type}

def cfg2url (json : Json (Config ν)) (location : Location) (config : Config ν) : Option Location :=
  let origloc := location.pathname
  let origloc := origloc ++ (ascii "?rps=" ++ Base64.encode (json.stringify config))
  pushState location origloc

def url2cfg (json : Json (Config ν)) (location : Location) (config : Config ν) : Config ν :=
  (urlSearchParams location.search).foldl (fun config entry =>
    if entry.1 = ascii "rps" then
      match (Base64.decode entry.2).bind json.parse with
      | some urlconfig => urlconfig.keys.foldl urlconfig.assign config
      | none => config
    else config) config

/-- The base64 text of a configuration. -/
def encoded (json : Json (Config ν)) (config : Config ν) : Bytes :=
  Base64.encode (json.stringify config)

/-- The base64 text with every `+` lost is the text of no configuration. -/
def Unreadable (json : Json (Config ν)) (config : Config ν) : Prop :=
  ∀ config',
    Base64.decode ((encoded json config).filter (· ≠ 0x2b)) ≠ some (json.stringify config')

variable [NatCast ν]

/-- The configuration a page starts with. -/
def Config.initial (location : Location) : Config ν where
  url := location.origin ++ location.pathname
  graphdatabufsz := (100 : ℕ)
  logdatabufsz := (8 : ℕ)
  graphupdateperiodms := (1000 : ℕ)
  running := false

/-- The configuration after the page has been loaded. -/
def load (json : Json (Config ν)) (location : Location) : Config ν :=
  url2cfg json location (Config.initial location)

/-- The address is pushed, and restores the configuration. -/
def Survives (json : Json (Config ν)) (location : Location) (config : Config ν) : Prop :=
  (cfg2url json location config).map (load json) = some config

end Address

/-! ## Queries -/

section Queries

variable {s data : Bytes}

theorem percentDecode_eq_self (h : 0x25 ∉ s) : percentDecode s = s := by
  fun_induction percentDecode s with
  | case1 hi lo rest => exact absurd List.mem_cons_self h
  | case2 hi lo rest => exact absurd List.mem_cons_self h
  | case3 c rest hc ih => rw [ih fun hm => h (List.mem_cons_of_mem _ hm)]
  | case4 => rfl

theorem percent_not_mem_plusToSpace (h : 0x25 ∉ s) : 0x25 ∉ plusToSpace s := by
  intro hm
  obtain ⟨c, hc, he⟩ := List.mem_map.mp hm
  split_ifs at he with hplus
  · cases he
  · exact h (he ▸ hc)

/-- A query of one parameter. -/
theorem urlSearchParams_rps (hamp : 0x26 ∉ data) (hpct : 0x25 ∉ data) :
    urlSearchParams (ascii "?rps=" ++ data) = [(ascii "rps", plusToSpace data)] := by
  have hquery : ascii "?rps=" ++ data = 0x3f :: (ascii "rps" ++ 0x3d :: data) := rfl
  have hparam : ascii "rps" ++ 0x3d :: data ≠ [] := by simp [ascii]
  have hsplit : (ascii "rps" ++ 0x3d :: data).splitOn 0x26 = [ascii "rps" ++ 0x3d :: data] := by
    refine List.splitOn_eq_singleton ?_
    rw [List.mem_append, List.mem_cons]
    rintro (h | h | h)
    · exact absurd h (by decide)
    · exact absurd h (by decide)
    · exact hamp h
  have htake : (ascii "rps" ++ 0x3d :: data).takeWhile (· ≠ 0x3d) = ascii "rps" := rfl
  have hdrop : ((ascii "rps" ++ 0x3d :: data).dropWhile (· ≠ 0x3d)).drop 1 = data := rfl
  unfold urlSearchParams
  rw [hquery, List.head?_cons, if_pos rfl, List.tail_cons]
  dsimp only
  rw [hsplit, List.filter_cons_of_pos (by simp [hparam]), List.filter_nil, List.map_singleton,
    htake, hdrop, percentDecode_eq_self (percent_not_mem_plusToSpace hpct)]
  rfl

/-- What `atob` reads of a text whose `+` have become spaces. -/
theorem decode_plusToSpace :
    Base64.decode (plusToSpace s) = Base64.decode (s.filter (· ≠ 0x2b)) := by
  refine Base64.decode_congr ?_
  induction s with
  | nil => rfl
  | cons c s ih =>
    unfold plusToSpace at ih ⊢
    by_cases hc : c = 0x2b
    · subst hc
      rw [List.map_cons, if_pos rfl, List.filter_cons_of_neg (by decide), ih,
        List.filter_cons_of_neg (a := 0x2b) (by decide)]
    · rw [List.map_cons, if_neg hc, List.filter_cons (x := c),
        List.filter_cons_of_pos (by simpa using hc), List.filter_cons (x := c), ih]

end Queries

/-! ## Texts -/

section Texts

/-- A character of a JSON string. -/
def escape (c : UInt8) : Bytes :=
  if c = 0x22 then [0x5c, 0x22]
  else if c = 0x5c then [0x5c, 0x5c]
  else if c = 0x08 then [0x5c, 0x62]
  else if c = 0x09 then [0x5c, 0x74]
  else if c = 0x0a then [0x5c, 0x6e]
  else if c = 0x0c then [0x5c, 0x66]
  else if c = 0x0d then [0x5c, 0x72]
  else if c < 0x20 then ascii "\\u00" ++ [hexLower (c.toNat / 16), hexLower (c.toNat % 16)]
  else [c]
where
  hexLower (n : ℕ) : UInt8 := UInt8.ofNat (if n < 10 then 0x30 + n else 0x61 + (n - 10))

/-- The character that `escape` has written. -/
def unescape : Bytes → Option (UInt8 × Bytes)
  | 0x5c :: 0x75 :: _ :: _ :: hi :: lo :: rest =>
    some (UInt8.ofNat (16 * (Json.hexDigit hi).getD 0 + (Json.hexDigit lo).getD 0), rest)
  | 0x5c :: e :: rest =>
    (Json.escapes.lookup e).map fun n => (UInt8.ofNat n, rest)
  | 0x22 :: _ => none
  | c :: rest => some (c, rest)
  | [] => none

/-- `JSON.stringify` of a configuration whose numbers are natural. -/
def text (config : Config ℕ) : Bytes :=
  ascii "\x7b\"url\":\"" ++ (config.url.flatMap escape ++
    (ascii "\",\"graphdatabufsz\":" ++ (ascii (toString config.graphdatabufsz) ++
      (ascii ",\"logdatabufsz\":" ++ (ascii (toString config.logdatabufsz) ++
        (ascii ",\"graphupdateperiodms\":" ++ (ascii (toString config.graphupdateperiodms) ++
          (ascii ",\"running\":" ++ (ascii (toString config.running) ++ ascii "\x7d")))))))))

theorem unescape_hex (c : UInt8) (rest : Bytes) :
    unescape (ascii "\\u00" ++ [escape.hexLower (c.toNat / 16), escape.hexLower (c.toNat % 16)] ++
      rest) = some (c, rest) := by
  have hdigit : ∀ d : Fin 16, Json.hexDigit (escape.hexLower d.val) = some d.val := by
    decide +kernel
  have hlt := c.toNat_lt
  have hhi := hdigit ⟨c.toNat / 16, by omega⟩
  have hlo := hdigit ⟨c.toNat % 16, by omega⟩
  show some (UInt8.ofNat (16 * (Json.hexDigit (escape.hexLower (c.toNat / 16))).getD 0 +
    (Json.hexDigit (escape.hexLower (c.toNat % 16))).getD 0), rest) = some (c, rest)
  rw [hhi, hlo]
  simp only [Option.getD_some]
  rw [Nat.div_add_mod, UInt8.ofNat_toNat]

theorem unescape_escape (c : UInt8) (rest : Bytes) :
    unescape (escape c ++ rest) = some (c, rest) := by
  unfold escape
  split_ifs with h₁ h₂ h₃ h₄ h₅ h₆ h₇ h₈
  · rw [h₁]; rfl
  · rw [h₂]; rfl
  · rw [h₃]; rfl
  · rw [h₄]; rfl
  · rw [h₅]; rfl
  · rw [h₆]; rfl
  · rw [h₇]; rfl
  · exact unescape_hex c rest
  · rw [List.singleton_append, unescape]
    · exact fun _ _ _ _ _ hc => absurd hc h₂
    · exact fun _ _ hc => absurd hc h₂
    · exact fun hc => absurd hc h₁

theorem escape_append_inj {c d : UInt8} {r r' : Bytes} (h : escape c ++ r = escape d ++ r') :
    c = d ∧ r = r' := by
  have hread := unescape_escape c r
  rw [h, unescape_escape, Option.some.injEq, Prod.mk.injEq] at hread
  exact ⟨hread.1.symm, hread.2.symm⟩

theorem unescape_quote (r : Bytes) : unescape (0x22 :: r) = none := rfl

/-- A JSON string ends where its quote is. -/
theorem escaped_inj {s t r r' : Bytes}
    (h : s.flatMap escape ++ 0x22 :: r = t.flatMap escape ++ 0x22 :: r') : s = t ∧ r = r' := by
  induction s generalizing t with
  | nil =>
    cases t with
    | nil => exact ⟨rfl, List.tail_eq_of_cons_eq h⟩
    | cons d t =>
      rw [List.flatMap_cons, List.append_assoc] at h
      have hread := unescape_escape d (t.flatMap escape ++ 0x22 :: r')
      rw [← h] at hread
      cases (unescape_quote r).symm.trans hread
  | cons c s ih =>
    cases t with
    | nil =>
      rw [List.flatMap_cons, List.append_assoc] at h
      have hread := unescape_escape c (s.flatMap escape ++ 0x22 :: r)
      rw [h] at hread
      cases (unescape_quote r').symm.trans hread
    | cons d t =>
      rw [List.flatMap_cons, List.flatMap_cons, List.append_assoc, List.append_assoc] at h
      obtain ⟨rfl, htail⟩ := escape_append_inj h
      obtain ⟨rfl, hr⟩ := ih htail
      exact ⟨rfl, hr⟩

/-- A number ends where its digits do. -/
theorem number_inj {n m : ℕ} {s r r' : Bytes} (hs : s.head?.map isdigit = some false)
    (h : ascii (toString n) ++ (s ++ r) = ascii (toString m) ++ (s ++ r')) : n = m ∧ r = r' := by
  have hdigits (n : ℕ) (r : Bytes) :
      (ascii (toString n) ++ (s ++ r)).takeWhile isdigit = ascii (toString n) := by
    obtain ⟨c, hc, hdigit⟩ := Option.map_eq_some_iff.mp hs
    obtain ⟨t, rfl⟩ := List.head?_eq_some_iff.mp hc
    rw [List.takeWhile_append_of_pos fun b hb => isdigit_of_mem hb, List.cons_append,
      List.takeWhile_cons, hdigit]
    exact List.append_nil _
  have htext : ascii (toString n) = ascii (toString m) := by rw [← hdigits n r, h, hdigits]
  have hnum : n = m := by rw [← digits_toString n, htext, digits_toString]
  subst hnum
  exact ⟨rfl, List.append_cancel_left (List.append_cancel_left h)⟩

theorem toString_bool_inj {b b' : Bool} (h : ascii (toString b) = ascii (toString b')) :
    b = b' := by
  revert b b'
  decide

theorem text_injective : Function.Injective text := by
  intro config config' h
  unfold text at h
  obtain ⟨hurl, h⟩ := escaped_inj (List.append_cancel_left h)
  obtain ⟨hgraph, h⟩ := number_inj (by decide) (List.append_cancel_left h)
  obtain ⟨hlog, h⟩ := number_inj (by decide) h
  obtain ⟨hperiod, h⟩ := number_inj (by decide) h
  have hrunning := toString_bool_inj (List.append_cancel_right h)
  cases config
  cases config'
  congr

/-- JSON texts of configurations with natural numbers. -/
noncomputable def natJson : Json (Config ℕ) where
  stringify := text
  parse := Function.partialInv text
  inverse := text_injective.isPartialInv

end Texts

/-! ## Loading -/

section Loading

variable {ν : Type} {json : Json (Config ν)} {location : Location} {config : Config ν}

theorem assign_keys (urlconfig : Config ν) :
    urlconfig.keys.foldl urlconfig.assign config = urlconfig :=
  rfl

/-- The address that is pushed. -/
def pushed (json : Json (Config ν)) (location : Location) (config : Config ν) : Location :=
  { location with search := ascii "?rps=" ++ encoded json config }

theorem cfg2url_eq : cfg2url json location config = some (pushed json location config) := by
  have hpath : ∀ c ∈ location.pathname, decide (c ≠ 0x3f) = true := fun c hc =>
    decide_eq_true fun h => location.path (h ▸ hc)
  have htake : (location.pathname ++ (ascii "?rps=" ++ encoded json config)).takeWhile
      (· ≠ 0x3f) = location.pathname := by
    rw [List.takeWhile_append_of_pos hpath]
    exact List.append_nil _
  have hdrop : (location.pathname ++ (ascii "?rps=" ++ encoded json config)).dropWhile
      (· ≠ 0x3f) = ascii "?rps=" ++ encoded json config := by
    rw [List.dropWhile_append_of_pos hpath]
    rfl
  unfold encoded at htake hdrop
  unfold cfg2url pushState
  simp only [htake, hdrop]
  exact dif_pos location.rooted

theorem not_mem_encoded {c : UInt8} (hc : Base64.sextet c = none) (hpad : c ≠ 0x3d) :
    c ∉ encoded json config := by
  intro h
  rcases Base64.sextet_of_mem_encode h with hs | hs
  · rw [hc] at hs
    cases hs
  · exact hpad hs

theorem parse_eq_none_iff {s : Bytes} :
    json.parse s = none ↔ ∀ config, json.stringify config ≠ s := by
  rw [Option.eq_none_iff_forall_ne_some]
  exact forall_congr' fun config => not_congr (json.inverse config s)

/-- In an ASCII text `+` stands for `>` and `~` at every third place. -/
theorem plus_mem_encoded_iff (h : ∀ c ∈ json.stringify config, c < 0x80) :
    0x2b ∈ encoded json config ↔ ∃ i, i % 3 = 2 ∧
      ((json.stringify config)[i]? = some 0x3e ∨ (json.stringify config)[i]? = some 0x7e) :=
  Base64.plus_mem_encode_iff h

variable [NatCast ν]

/-- Loading the pushed address. -/
theorem load_pushed : load json (pushed json location config) =
    ((Base64.decode ((encoded json config).filter (· ≠ 0x2b))).bind json.parse).getD
      (Config.initial location) := by
  unfold load url2cfg
  rw [show (pushed json location config).search = ascii "?rps=" ++ encoded json config from rfl,
    urlSearchParams_rps (not_mem_encoded (by decide) (by decide))
      (not_mem_encoded (by decide) (by decide)), List.foldl_cons, List.foldl_nil, if_pos rfl,
    decode_plusToSpace]
  cases (Base64.decode ((encoded json config).filter (· ≠ 0x2b))).bind json.parse with
  | none => rfl
  | some urlconfig => exact assign_keys urlconfig

theorem survives_iff_load :
    Survives json location config ↔ load json (pushed json location config) = config := by
  unfold Survives
  rw [cfg2url_eq, Option.map_some, Option.some.injEq]

theorem survives_of_plus_not_mem (h : 0x2b ∉ encoded json config) :
    Survives json location config := by
  have hfilter : (encoded json config).filter (· ≠ 0x2b) = encoded json config :=
    List.filter_eq_self.mpr fun c hc => decide_eq_true fun he => h (he ▸ hc)
  rw [survives_iff_load, load_pushed, hfilter, encoded, Base64.decode_encode, Option.bind_some, json.inverse.eq]
  rfl

/-- What is left of the text is no configuration, and the page keeps the one it started with. -/
theorem survives_of_unreadable (h : Unreadable json config) :
    Survives json location config ↔ config = Config.initial location := by
  have hparse :
      (Base64.decode ((encoded json config).filter (· ≠ 0x2b))).bind json.parse = none := by
    rw [Option.bind_eq_none_iff]
    intro s hs
    rw [parse_eq_none_iff]
    rintro config' rfl
    exact h config' hs
  rw [survives_iff_load, load_pushed, hparse]
  exact eq_comm

/-- What is left of the text is a configuration, and it is another one. -/
theorem not_survives_of_readable (hplus : 0x2b ∈ encoded json config)
    (h : ¬ Unreadable json config) : ¬ Survives json location config := by
  unfold Unreadable at h
  push Not at h
  obtain ⟨config', hdecode⟩ := h
  rw [survives_iff_load, load_pushed, hdecode, Option.bind_some, json.inverse.eq, Option.getD_some]
  rintro rfl
  exact Base64.decode_ne_of_lost (by decide) hplus hdecode

/-- The configuration survives if its base64 text has no `+`. Otherwise only the one that a page
starts with does, when what is left of its text is no configuration. -/
theorem survives_iff : Survives json location config ↔
    0x2b ∉ encoded json config ∨ (config = Config.initial location ∧ Unreadable json config) := by
  by_cases hplus : 0x2b ∈ encoded json config
  · rw [or_iff_right (not_not.mpr hplus)]
    by_cases hread : Unreadable json config
    · rw [survives_of_unreadable hread, and_iff_left hread]
    · exact iff_of_false (not_survives_of_readable hplus hread) fun h => hread h.2
  · exact iff_of_true (survives_of_plus_not_mem hplus) (.inl hplus)

end Loading

/-- The page on a local server. -/
def localPage : Location where
  origin := ascii "http://localhost:8000"
  pathname := ascii "/rps/index.html"
  search := []
  path := by decide
  rooted := by decide

/-- Its configuration when the address of a home page has been entered. -/
def homeConfig : Config ℕ := { Config.initial localPage with url := ascii "http://host/~alice/" }

theorem homeConfig_lost : ¬ Survives natJson localPage homeConfig := by
  have hdecode : Base64.decode ((encoded natJson homeConfig).filter (· ≠ 0x2b)) = none := by
    show Base64.decode ((Base64.encode (text homeConfig)).filter (· ≠ 0x2b)) = none
    decide +kernel
  have hunreadable : Unreadable natJson homeConfig := by
    intro config' h
    rw [hdecode] at h
    cases h
  rw [survives_of_unreadable hunreadable]
  decide +kernel

end Csrv.Www.Rps
