import BoaGateway.Occurrences
import BoaGateway.Paths
import BoaGateway.WebServer

/-!
# The page lists and the paths they let through

Each account has a list of pages, and a path is let through when an entry occurs in it anywhere.
Entries have no slash, so an entry occurs in a path exactly when it occurs in a component, which
need be neither the last one nor the entry itself.
-/

namespace WhiteLists

open ByteBlocks Texts Paths Occurrences BoaLogin WebServer

/-- `deo_admin_web_page_list`. -/
def deoAdminWebPageList : List Bytes :=
  ["status.asp", "status_ipv6.asp", "status_pon.asp", "lan_port_status.asp", "tcpiplan.asp",
   "deo_multi_wan_generic.asp", "dhcpd.asp", "ddns.asp", "igmproxy.asp", "access_limit.asp",
   "client_info.asp", "algonoff.asp", "fw-ipportfilter.asp", "fw-macfilter.asp", "fw-portfw.asp",
   "static-mapping.asp", "fw-dmz.asp", "arptable.asp", "lbd.asp", "snmpv3.asp", "net_qos_cls.asp",
   "net_qos_traffictl.asp", "ipv6_enabledisable.asp", "app_mldProxy.asp", "app_mld_snooping.asp",
   "fw-ipportfilter-v6.asp", "aclv6.asp", "ping.asp", "ping_result.asp", "ping6.asp",
   "ping6_result.asp", "tracert.asp", "tracert_result.asp", "tracert6.asp", "tracert6_result.asp",
   "grouptable.asp", "grouptable_result.asp", "ssh.asp", "ssh_result.asp", "netstat.asp",
   "netstat_result.asp", "portmirror.asp", "portmirror_result.asp", "reboot.asp", "saveconf.asp",
   "syslog.asp", "user_syslog.asp", "syslog_server.asp", "ldap.asp", "holepunching.asp", "dos.asp",
   "password.asp", "upgrade.asp", "autoreboot.asp", "natsession.asp", "useage.asp",
   "selfcheck.asp", "acl.asp", "tz.asp", "logout.asp", "stats.asp", "pon-stats.asp", "login.asp",
   "login_base.asp", "login.cgi", "usereg.asp", "useregresult.asp", "terminal_inspec.asp",
   "dl_notify.asp", "net_qos_cls_edit.asp", "net_qos_traffictl_edit.asp", "dhcptbl.asp",
   "portBaseFilterDhcp.asp", "macIptbl.asp", "lanApConnection.asp", "wanApConnection.asp",
   "invalid_page.asp", "formWanApConnection", "formUpload", "formWanRedirect", "formPing",
   "formTracert", "formSshResult", "formNetstatResult", "formPortMirrorResult", "formGroupTable",
   "formSsh", "formNetstat", "formPortMirror", "formBankStatus", "formUseageSetup",
   "formNatSessionSetup", "formDosCfg", "formAutoReboot", "formNtp", "formPasswordSetup",
   "formTcpipLanSetup", "formWanEth", "formDhcpServer", "formDDNS", "formAccessLimit",
   "formReflashClientTbl", "formNickname", "formALGOnOff", "formFilter", "formPortFw",
   "formStaticMapping", "formDMZ", "formRefleshFdbTbl", "formLBD", "formWanEth", "formFilterV6",
   "formReboot", "formSaveConfig", "formStats", "formStatus", "formLANPortStatus", "formIgmproxy",
   "formSnmpConfig", "formMLDProxy", "formMLDSnooping", "formV6ACL", "formLogout", "formmacBase",
   "formSysLog", "formHolepunching", "formLdap", "formACL", "formQosRuleEdit", "formQosRule",
   "formQosTraffictlEdit", "formQosTraffictl", "userLogin", "bootstrap", "captcha.png",
   "common.js", "common.css", "base64_code.js", "sha256_code.js", "default.css",
   "btn_login_bg.gif", "login_bg_new.jpg", "icon_login.png", "logo.gif", "bg_ah_login_01.gif",
   "bg_ah_login.gif", "loid_register.gif", "loidreg_ah_01.gif", "loidreg_ah.gif", "favicon.ico",
   "sk_loing_logo.png", "reset.css", "style.css", "jquip.js", "base.css", "jquip_sizzle.js",
   "juicer.js", "ui.js", "init.js", "adminMenu.js", "userMenu.js", "top_bg.jpg", "nav_line.jpg",
   "icon_menu_li.jpg", "share.js", "btn_refresh.gif", "btn_orange2.gif", "php-crypt-md5.js",
   "md5.js", "messages", "ram_log"].map ascii

/-- `deo_user_web_page_list`. -/
def deoUserWebPageList : List Bytes :=
  ["status.asp", "status_ipv6.asp", "status_pon.asp", "lan_port_status.asp", "tcpiplan.asp",
   "deo_multi_wan_generic.asp", "dhcpd.asp", "ddns.asp", "access_limit.asp", "client_info.asp",
   "algonoff.asp", "fw-ipportfilter.asp", "fw-macfilter.asp", "fw-portfw.asp",
   "static-mapping.asp", "fw-dmz.asp", "arptable.asp", "lbd.asp", "ipv6_enabledisable.asp",
   "fw-ipportfilter-v6.asp", "ping.asp", "ping_result.asp", "ping6.asp", "ping6_result.asp",
   "tracert.asp", "tracert_result.asp", "tracert6.asp", "tracert6_result.asp", "grouptable.asp",
   "grouptable_result.asp", "ssh.asp", "ssh_result.asp", "portmirror.asp", "portmirror_result.asp",
   "reboot.asp", "saveconf.asp", "user_syslog.asp", "syslog_server.asp", "dos.asp", "password.asp",
   "upgrade.asp", "autoreboot.asp", "natsession.asp", "useage.asp", "selfcheck.asp", "tz.asp",
   "logout.asp", "stats.asp", "pon-stats.asp", "login.asp", "login_base.asp", "login.cgi",
   "usereg.asp", "useregresult.asp", "terminal_inspec.asp", "dl_notify.asp",
   "net_qos_cls_edit.asp", "net_qos_traffictl_edit.asp", "dhcptbl.asp", "portBaseFilterDhcp.asp",
   "macIptbl.asp", "lanApConnection.asp", "wanApConnection.asp", "invalid_page.asp",
   "formWanApConnection", "formUpload", "formWanRedirect", "formPing", "formTracert",
   "formSshResult", "formNetstatResult", "formPortMirrorResult", "formGroupTable", "formSsh",
   "formNetstat", "formPortMirror", "formBankStatus", "formUseageSetup", "formNatSessionSetup",
   "formDosCfg", "formAutoReboot", "formNtp", "formPasswordSetup", "formTcpipLanSetup",
   "formWanEth", "formDhcpServer", "formDDNS", "formAccessLimit", "formReflashClientTbl",
   "formNickname", "formALGOnOff", "formFilter", "formPortFw", "formStaticMapping", "formDMZ",
   "formRefleshFdbTbl", "formLBD", "formWanEth", "formFilterV6", "formReboot", "formSaveConfig",
   "formStats", "formStatus", "formLANPortStatus", "formIgmproxy", "formSnmpConfig",
   "formMLDProxy", "formMLDSnooping", "formV6ACL", "formLogout", "formmacBase", "formSysLog",
   "userLogin", "bootstrap", "captcha.png", "common.js", "common.css", "base64_code.js",
   "sha256_code.js", "default.css", "btn_login_bg.gif", "login_bg_new.jpg", "icon_login.png",
   "logo.gif", "bg_ah_login_01.gif", "bg_ah_login.gif", "loid_register.gif", "loidreg_ah_01.gif",
   "loidreg_ah.gif", "favicon.ico", "sk_loing_logo.png", "reset.css", "style.css", "jquip.js",
   "base.css", "jquip_sizzle.js", "juicer.js", "ui.js", "init.js", "adminMenu.js", "userMenu.js",
   "top_bg.jpg", "nav_line.jpg", "icon_menu_li.jpg", "share.js", "btn_refresh.gif",
   "btn_orange2.gif", "php-crypt-md5.js", "md5.js", "messages", "ram_log"].map ascii

/-- The build with these lists. -/
def deoSetup (dirs : List Bytes) (sha256 : Bytes → Block 32) : Setup where
  dirs := dirs
  adminWebPageList := deoAdminWebPageList
  userWebPageList := deoUserWebPageList
  sha256 := sha256

def lastComponent (url : Bytes) : Bytes := (url.splitOn slash).getLast (List.splitOn_ne_nil slash url)

def AdminAllowed (url : Bytes) : Prop :=
  url = [slash] ∨ lastComponent url ∈ deoAdminWebPageList

def OnPort8080 (host : Option Bytes) : Prop := ∃ h, host = some h ∧ ascii ":8080" <:+ h

/-- A page of the user. -/
def UserPage (host : Option Bytes) (name : Bytes) : Prop :=
  name ∈ deoUserWebPageList ∨ name = ascii "netstat_result.asp" ∨
    name = ascii "netstat.asp" ∧ OnPort8080 host

def UserAllowed (url : Bytes) (host : Option Bytes) : Prop :=
  url = [slash] ∨ UserPage host (lastComponent url)

/-- A name stands in some component of a path. -/
def Occurs (name url : Bytes) : Prop := ∃ t ∈ url.splitOn slash, name <:+: t

/-- The names that the loop for the user looks for. -/
def LookedFor (url : Bytes) (host : Option Bytes) (name : Bytes) : Prop :=
  name ∈ deoUserWebPageList ∧ ¬ (Occurs (ascii "app_mld_snooping.asp") url ∧ name = ascii "ping.asp") ∨
    name = ascii "netstat_result.asp" ∨
    name = ascii "netstat.asp" ∧ ∃ h, host = some h ∧ ascii "8080" <:+: h

def AdminClear (url : Bytes) : Prop :=
  (∃ name ∈ deoAdminWebPageList, Occurs name url) → lastComponent url ∈ deoAdminWebPageList

structure UserClear (url : Bytes) (host : Option Bytes) : Prop where
  reads : Occurs (ascii "netstat.asp") url → ¬ Occurs (ascii "netstat_result.asp") url → host ≠ none
  named : (∃ name, LookedFor url host name ∧ Occurs name url) → UserPage host (lastComponent url)
  ping : lastComponent url = ascii "ping.asp" → Occurs (ascii "app_mld_snooping.asp") url →
    ∃ name, LookedFor url host name ∧ Occurs name url

theorem contains_iff {s t : Bytes} : contains s t = true ↔ t <:+: s := by
  induction s with
  | nil =>
    rw [List.infix_nil]
    cases t with
    | nil => simp [contains, strstr]
    | cons c t => simp [contains, strstr]
  | cons c s ih =>
    rw [List.infix_cons_iff, ← ih, ← List.isPrefixOf_iff_prefix]
    by_cases hpre : t.isPrefixOf (c :: s) = true
    · simp [contains, strstr, hpre]
    · simp [contains, strstr, hpre]

/-- A name without a slash stands in a path exactly if it stands in a component. -/
theorem occurs_iff {name url : Bytes} (hname : slash ∉ name) :
    Occurs name url ↔ contains url name = true := by
  have hjoin {ts : List Bytes} (hts : ts ≠ []) :
      name <:+: joinSlash ts ↔ ∃ t ∈ ts, name <:+: t := by
    induction ts with
    | nil => exact absurd rfl hts
    | cons t ts ih =>
      by_cases hnil : ts = []
      · subst hnil
        simp [joinSlash]
      · rw [joinSlash_cons t hnil, infix_append_cons_iff hname, ih hnil]
        simp
  rw [Occurs, contains_iff, ← hjoin (List.splitOn_ne_nil slash url), joinSlash_splitOn]

theorem last_mem (url : Bytes) : lastComponent url ∈ url.splitOn slash := List.getLast_mem _

theorem occurs_last {name url : Bytes} (h : lastComponent url = name) : Occurs name url :=
  ⟨lastComponent url, last_mem url, h ▸ List.infix_rfl⟩

/-- Nothing occurs in the root path. -/
theorem not_occurs_root {name : Bytes} (hname : name ≠ []) : ¬ Occurs name [slash] := by
  have hsplit : [slash].splitOn slash = [[], []] := by decide
  rintro ⟨t, ht, hinfix⟩
  rw [hsplit] at ht
  have hnil : t = [] := by simpa using ht
  exact hname (List.infix_nil.mp (hnil ▸ hinfix))

theorem admin_entry {name : Bytes} (h : name ∈ deoAdminWebPageList) : slash ∉ name ∧ name ≠ [] := by
  have hall : ∀ n ∈ deoAdminWebPageList, slash ∉ n ∧ n ≠ [] := by decide +kernel
  exact hall name h

theorem user_entry {name : Bytes} (h : name ∈ deoUserWebPageList) : slash ∉ name ∧ name ≠ [] := by
  have hall : ∀ n ∈ deoUserWebPageList, slash ∉ n ∧ n ≠ [] := by decide +kernel
  exact hall name h

theorem lookedFor_entry {url name : Bytes} {host : Option Bytes} (h : LookedFor url host name) :
    slash ∉ name ∧ name ≠ [] := by
  rcases h with ⟨h, -⟩ | rfl | ⟨rfl, -⟩
  · exact user_entry h
  · decide
  · decide

/-- The test of `netstat.asp` in every round. -/
def portTest (url : Bytes) (host : Option Bytes) : Option Bool :=
  if contains url (ascii "netstat.asp") then
    host.map fun host => contains host (ascii "8080") else some false

/-- The test of an entry, with the exception. -/
def entryTest (url page : Bytes) : Bool :=
  contains url page && !(contains url (ascii "app_mld_snooping.asp") && page == ascii "ping.asp")

/-- The tests that do not depend on the entry come to the same in every round. -/
theorem userPagesLoop_eq (url : Bytes) (host : Option Bytes) {pages : List Bytes}
    (hne : pages ≠ []) :
    userPagesLoop url host pages =
      if contains url (ascii "netstat_result.asp") then some true
      else (portTest url host).map fun found => found || pages.any (entryTest url) := by
  induction pages with
  | nil => exact absurd rfl hne
  | cons page pages ih =>
    rw [userPagesLoop, ← portTest]
    by_cases hresult : contains url (ascii "netstat_result.asp") = true
    · rw [if_pos hresult, if_pos hresult]
    · rw [if_neg hresult, if_neg hresult]
      -- the rest of the list decides when this entry does not
      have hrest (hport : portTest url host = some false) :
          userPagesLoop url host pages = some (pages.any (entryTest url)) := by
        cases hpages : pages with
        | nil => rfl
        | cons page' pages' =>
          rw [← hpages, ih (by simp [hpages]), if_neg hresult, hport]
          rfl
      cases hport : portTest url host with
      | none => rfl
      | some found =>
        cases found with
        | true => rfl
        | false =>
          simp only [Option.map_some, Bool.false_or, List.any_cons, hrest hport]
          by_cases hpage : contains url page = true
          · by_cases hexcept : (contains url (ascii "app_mld_snooping.asp") &&
                page == ascii "ping.asp") = true
            · simp [entryTest, hpage, hexcept]
            · simp [entryTest, hpage, hexcept]
          · simp [entryTest, hpage]

theorem entryTest_iff {url page : Bytes} (hpage : slash ∉ page) :
    entryTest url page = true ↔ Occurs page url ∧
      ¬ (Occurs (ascii "app_mld_snooping.asp") url ∧ page = ascii "ping.asp") := by
  rw [occurs_iff hpage, occurs_iff (by decide)]
  cases happ : contains url (ascii "app_mld_snooping.asp") with
  | false => simp [entryTest, happ]
  | true => simp [entryTest, happ]

theorem portTest_none_iff {url : Bytes} {host : Option Bytes} :
    portTest url host = none ↔ Occurs (ascii "netstat.asp") url ∧ host = none := by
  rw [occurs_iff (by decide), portTest]
  split
  · simp [*]
  · simp [*]

theorem portTest_true_iff {url : Bytes} {host : Option Bytes} :
    portTest url host = some true ↔
      Occurs (ascii "netstat.asp") url ∧ ∃ h, host = some h ∧ ascii "8080" <:+: h := by
  rw [occurs_iff (by decide), portTest]
  split
  · simp [*, contains_iff]
  · simp [*]

variable (dirs : List Bytes) (sha256 : Bytes → Block 32)

/-- What the function for the user finds. -/
theorem checkUser_iff {url : Bytes} {host : Option Bytes} {ok : Bool}
    (h : checkUserWhiteListPage (deoSetup dirs sha256) url host = some ok) :
    ok = true ↔ (∃ name, LookedFor url host name ∧ Occurs name url) ∨ url = [slash] := by
  have hne : deoUserWebPageList ≠ [] := by decide
  have hresult : contains url (ascii "netstat_result.asp") = true ↔
      Occurs (ascii "netstat_result.asp") url := (occurs_iff (by decide)).symm
  obtain ⟨found, hloop, rfl⟩ := Option.map_eq_some_iff.mp h
  rw [Bool.or_eq_true, beq_iff_eq]
  apply or_congr_left
  change userPagesLoop url host deoUserWebPageList = some found at hloop
  rw [userPagesLoop_eq url host hne] at hloop
  constructor
  · intro hfound
    subst hfound
    split at hloop
    · rename_i hcontains
      exact ⟨_, Or.inr (Or.inl rfl), hresult.mp hcontains⟩
    · obtain ⟨port, hport, hor⟩ := Option.map_eq_some_iff.mp hloop
      rcases Bool.or_eq_true_iff.mp hor with rfl | hany
      · obtain ⟨hoccurs, hhost⟩ := portTest_true_iff.mp hport
        exact ⟨_, Or.inr (Or.inr ⟨rfl, hhost⟩), hoccurs⟩
      · obtain ⟨page, hmem, htest⟩ := List.any_eq_true.mp hany
        obtain ⟨hoccurs, hexcept⟩ := (entryTest_iff (user_entry hmem).1).mp htest
        exact ⟨page, Or.inl ⟨hmem, hexcept⟩, hoccurs⟩
  · rintro ⟨name, hlooked, hoccurs⟩
    split at hloop
    · exact (Option.some.inj hloop).symm
    · rename_i hcontains
      obtain ⟨port, hport, rfl⟩ := Option.map_eq_some_iff.mp hloop
      rcases hlooked with ⟨hmem, hexcept⟩ | rfl | ⟨rfl, hhost⟩
      · have htest := (entryTest_iff (user_entry hmem).1).mpr ⟨hoccurs, hexcept⟩
        rw [List.any_eq_true.mpr ⟨name, hmem, htest⟩, Bool.or_true]
      · exact absurd (hresult.mpr hoccurs) hcontains
      · cases hport.symm.trans (portTest_true_iff.mpr ⟨hoccurs, hhost⟩)
        exact Bool.true_or _

/-- It follows a null pointer when the host of a request is missing. -/
theorem checkUser_none_iff {url : Bytes} {host : Option Bytes} :
    checkUserWhiteListPage (deoSetup dirs sha256) url host = none ↔
      Occurs (ascii "netstat.asp") url ∧ ¬ Occurs (ascii "netstat_result.asp") url ∧
        host = none := by
  have hne : deoUserWebPageList ≠ [] := by decide
  have hresult : contains url (ascii "netstat_result.asp") = true ↔
      Occurs (ascii "netstat_result.asp") url := (occurs_iff (by decide)).symm
  rw [checkUserWhiteListPage, Option.map_eq_none_iff]
  change userPagesLoop url host deoUserWebPageList = none ↔ _
  rw [userPagesLoop_eq url host hne, ← hresult]
  split
  · simp [*]
  · rw [Option.map_eq_none_iff, portTest_none_iff]
    simp [*]

theorem checkAdmin_iff {url : Bytes} :
    checkAdminWhiteListPage (deoSetup dirs sha256) url = true ↔
      (∃ name ∈ deoAdminWebPageList, Occurs name url) ∨ url = [slash] := by
  rw [checkAdminWhiteListPage, Bool.or_eq_true, beq_iff_eq, List.any_eq_true]
  apply or_congr_left
  constructor
  · rintro ⟨name, hmem, hcontains⟩
    exact ⟨name, hmem, (occurs_iff (admin_entry hmem).1).mpr hcontains⟩
  · rintro ⟨name, hmem, hoccurs⟩
    exact ⟨name, hmem, (occurs_iff (admin_entry hmem).1).mp hoccurs⟩

theorem adminClear_iff {url : Bytes} :
    (checkAdminWhiteListPage (deoSetup dirs sha256) url = true ↔ AdminAllowed url) ↔
      AdminClear url := by
  rw [checkAdmin_iff]
  constructor
  · rintro h ⟨name, hmem, hoccurs⟩
    rcases h.mp (Or.inl ⟨name, hmem, hoccurs⟩) with rfl | hlast
    · exact absurd hoccurs (not_occurs_root (admin_entry hmem).2)
    · exact hlast
  · intro hclear
    constructor
    · rintro (hoccurs | hroot)
      · exact Or.inr (hclear hoccurs)
      · exact Or.inl hroot
    · rintro (hroot | hlast)
      · exact Or.inr hroot
      · exact Or.inl ⟨_, hlast, occurs_last rfl⟩

/-- A page of the user is looked for, unless the exception takes it out. -/
theorem lookedFor_of_userPage {url name : Bytes} {host : Option Bytes} (h : UserPage host name)
    (hexcept : ¬ (Occurs (ascii "app_mld_snooping.asp") url ∧ name = ascii "ping.asp")) :
    LookedFor url host name := by
  rcases h with hmem | rfl | ⟨rfl, h, rfl, hport⟩
  · exact Or.inl ⟨hmem, hexcept⟩
  · exact Or.inr (Or.inl rfl)
  · have hinfix : ascii "8080" <:+: ascii ":8080" := ⟨ascii ":", [], by decide⟩
    exact Or.inr (Or.inr ⟨rfl, h, rfl, hinfix.trans hport.isInfix⟩)

theorem userClear_iff {url : Bytes} {host : Option Bytes} :
    (∃ ok, checkUserWhiteListPage (deoSetup dirs sha256) url host = some ok ∧
      (ok = true ↔ UserAllowed url host)) ↔ UserClear url host := by
  constructor
  · rintro ⟨ok, hok, hright⟩
    have hfound := checkUser_iff dirs sha256 hok
    have hroot {name : Bytes} (hlooked : LookedFor url host name) (hoccurs : Occurs name url) :
        url ≠ [slash] := by
      rintro rfl
      exact not_occurs_root (lookedFor_entry hlooked).2 hoccurs
    constructor
    · intro hnetstat hresult hhost
      cases hok.symm.trans ((checkUser_none_iff dirs sha256).mpr ⟨hnetstat, hresult, hhost⟩)
    · rintro ⟨name, hlooked, hoccurs⟩
      have hallowed := hright.mp (hfound.mpr (Or.inl ⟨name, hlooked, hoccurs⟩))
      exact hallowed.resolve_left (hroot hlooked hoccurs)
    · intro hlast happ
      have hping : ascii "ping.asp" ∈ deoUserWebPageList := by decide +kernel
      have hallowed : UserAllowed url host := Or.inr (Or.inl (hlast ▸ hping))
      refine (hfound.mp (hright.mpr hallowed)).resolve_right ?_
      rintro rfl
      exact absurd hlast (by decide)
  · intro hclear
    cases hok : checkUserWhiteListPage (deoSetup dirs sha256) url host with
    | none =>
      obtain ⟨hnetstat, hresult, hhost⟩ := (checkUser_none_iff dirs sha256).mp hok
      exact absurd hhost (hclear.reads hnetstat hresult)
    | some ok =>
      refine ⟨ok, rfl, ?_⟩
      rw [checkUser_iff dirs sha256 hok]
      constructor
      · rintro (hlooked | hroot)
        · exact Or.inr (hclear.named hlooked)
        · exact Or.inl hroot
      · rintro (hroot | hpage)
        · exact Or.inr hroot
        · left
          by_cases hexcept : Occurs (ascii "app_mld_snooping.asp") url ∧
              lastComponent url = ascii "ping.asp"
          · exact hclear.ping hexcept.2 hexcept.1
          · exact ⟨_, lookedFor_of_userPage hpage hexcept, occurs_last rfl⟩

/-- The two functions let exactly the listed pages through for the paths in which no listed name
occurs elsewhere. -/
theorem white_lists_iff (url : Bytes) (host : Option Bytes) :
    ((checkAdminWhiteListPage (deoSetup dirs sha256) url = true ↔ AdminAllowed url) ↔
      AdminClear url) ∧
    ((∃ ok, checkUserWhiteListPage (deoSetup dirs sha256) url host = some ok ∧
      (ok = true ↔ UserAllowed url host)) ↔ UserClear url host) :=
  ⟨adminClear_iff dirs sha256, userClear_iff dirs sha256⟩

/-- A page that is on no list is let through for the name of another one that it ends with. -/
theorem grouping_let_through :
    ¬ ∀ (dirs : List Bytes) (sha256 : Bytes → Block 32) (url : Bytes) (host : Option Bytes),
      (checkAdminWhiteListPage (deoSetup dirs sha256) url = true ↔ AdminAllowed url) ∧
        ∃ ok, checkUserWhiteListPage (deoSetup dirs sha256) url host = some ok ∧
          (ok = true ↔ UserAllowed url host) := by
  intro hclaim
  obtain ⟨hadmin, -⟩ :=
    hclaim [] (fun _ => Block.zeros 32) (ascii "/interface_grouping.asp") none
  have hlast : lastComponent (ascii "/interface_grouping.asp") ∉ deoAdminWebPageList := by
    decide +kernel
  have hping : ascii "ping.asp" ∈ deoAdminWebPageList := by decide +kernel
  have hoccurs : contains (ascii "/interface_grouping.asp") (ascii "ping.asp") = true := by
    decide
  have hallowed := hadmin.mp ((checkAdmin_iff _ _).mpr
    (Or.inl ⟨_, hping, (occurs_iff (by decide)).mpr hoccurs⟩))
  rcases hallowed with hroot | hmem
  · exact absurd hroot (by decide)
  · exact hlast hmem

end WhiteLists
