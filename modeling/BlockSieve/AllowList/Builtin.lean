import BlockSieve.AllowList

/-!
The allow-list that stands in when none is given: batch operations, and the
search, get and list tools of the core objects. Products, e-mails,
communications, calls and engagements are not on it.
-/

namespace BlockSieve.AllowList

/-- The tools that are kept by default, grouped by what they work on. -/
def builtinTools : List String :=
  [
    -- batch - associations
    "crm_batch_create_associations",
    -- batch - companies
    "crm_batch_create_companies",
    "crm_batch_update_companies",
    -- batch - contacts
    "crm_batch_create_contacts",
    "crm_batch_update_contacts",
    -- batch - deals
    "crm_batch_create_deals",
    "crm_batch_update_deals",
    -- batch - leads
    "crm_batch_create_leads",
    "crm_batch_update_leads",
    -- batch - objects
    "crm_batch_create_objects",
    "crm_batch_read_objects",
    "crm_batch_update_objects",
    -- batch - meetings
    "meetings_batch_archive",
    "meetings_batch_create",
    "meetings_batch_update",
    -- batch - notes
    "notes_batch_archive",
    "notes_batch_create",
    "notes_batch_read",
    "notes_batch_update",
    -- batch - tasks
    "tasks_batch_archive",
    "tasks_batch_create",
    "tasks_batch_read",
    "tasks_batch_update",
    -- search/get/list - companies
    "crm_get_company",
    "crm_search_companies",
    "crm_get_company_properties",
    -- search/get/list - objects
    "crm_list_objects",
    "crm_get_object",
    "crm_search_objects",
    -- search/get/list - associations
    "crm_list_association_types",
    "crm_get_associations",
    -- search/get/list - contacts
    "crm_get_contact",
    "crm_search_contacts",
    "crm_get_contact_properties",
    -- search/get/list - leads
    "crm_get_lead",
    "crm_search_leads",
    "crm_get_lead_properties",
    -- search/get/list - deals
    "crm_get_deal",
    "crm_search_deals",
    "crm_get_deal_properties",
    -- search/get/list - meetings
    "meetings_list",
    "meetings_get",
    "meetings_search",
    -- search/get/list - notes
    "notes_get",
    "notes_list",
    "notes_search",
    -- search/get/list - tasks
    "tasks_get",
    "tasks_list",
    "tasks_search"]

/-- The allow-list of the default tools. -/
def builtin : AllowList := ofList (builtinTools.map String.toList)

end BlockSieve.AllowList
